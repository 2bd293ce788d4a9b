/-
# What is recommended

A recommendation is a prediction, ranked and cut.  A prediction for a list of candidates has the
candidates as its keys, ascending and each once, so what can be recommended comes by ascending
item (`Ranking.eligible_ascending`), and the stable sort turns this order into the rule for equal
scores: the smaller item first (`Recommendation.Precedes`).

With that the ranking of a prediction lists everything that qualifies in an order without ties,
and cutting it keeps the first (`FirstIn`), whatever the number that is asked for.
-/
import PeerRatings.Proofs.Prediction.Scores
import PeerRatings.Proofs.Selection

namespace PeerRatings

variable {σ τ : Type}

/-! ## 1. The order of a ranking of predictions -/

/-- `a` stands before `b`: it scores higher, or the same bit for bit and its item is smaller. -/
def Recommendation.Precedes (a b : Recommendation Int) : Prop :=
  b.score.key < a.score.key ∨ a.score = b.score ∧ a.item < b.item

theorem Recommendation.not_precedes_self (a : Recommendation Int) : ¬ a.Precedes a := by
  rintro (h | ⟨-, h⟩)
  · exact Int.lt_irrefl _ h
  · exact Int.lt_irrefl _ h

namespace Ranking

variable {predictions rated : RatingVector Float}

/-- What can be recommended comes by ascending item. -/
theorem eligible_ascending (predictions rated : RatingVector Float) :
    (eligible predictions rated).Pairwise fun a b => a.item < b.item := by
  refine List.pairwise_filterMap.mpr (predictions.ascending.imp ?_)
  intro d e hde a ha b hb
  split at ha
  · simp at ha
  split at hb
  · simp at hb
  obtain rfl := Option.some.inj ha
  obtain rfl := Option.some.inj hb
  exact hde

/-- **Equal scores are listed by ascending item.** -/
theorem precedes_ofPredictions (predictions rated : RatingVector Float) :
    (ofPredictions predictions rated).recommendations.Pairwise Recommendation.Precedes := by
  have hstable : (ofPredictions predictions rated).recommendations.Pairwise fun a b =>
      b.notBelow a = true → a.item < b.item :=
    Sorting.stable_sorted Sorting.byKey_trans Sorting.byKey_total
      (eligible_ascending predictions rated)
  refine (List.Pairwise.and (ofPredictions predictions rated).bestFirst hstable).imp ?_
  rintro a b ⟨hle, htie⟩
  rcases hle.lt_or_eq with hlt | heq
  · exact .inl hlt
  · exact .inr ⟨(Score.key_injective heq).symm, htie (Recommendation.notBelow_iff.mpr heq.ge)⟩

/-- A candidate that the user has not rated, with a prediction for a score. -/
structure Qualifies (predictions rated : RatingVector Float) (candidates : List Int)
    (rec : Recommendation Int) : Prop where
  candidate : rec.item ∈ candidates
  unrated : rec.item ∉ rated.keys
  predicted : Arithmetic.isAbsent (predictions.get rec.item) = false
  score : rec.score = .ofFloat (predictions.get rec.item)

theorem qualifies_iff {candidates : List Int}
    (hkeys : ∀ item, item ∈ predictions.keys ↔ item ∈ candidates) {rec : Recommendation Int} :
    rec ∈ (ofPredictions predictions rated).recommendations ↔
      Qualifies predictions rated candidates rec := by
  rw [ofPredictions, (perm_ofList _).mem_iff, mem_eligible_iff]
  constructor
  · rintro ⟨⟨x, hx, hscore, hpredicted⟩, hunrated⟩
    have hget := RatingVector.get_eq hx
    refine ⟨?_, hunrated, hget ▸ hpredicted, hget ▸ hscore⟩
    rw [← hkeys, IdMap.mem_keys_iff, hx]
    rfl
  · rintro ⟨hcandidate, hunrated, hpredicted, hscore⟩
    rw [← hkeys, IdMap.mem_keys_iff] at hcandidate
    obtain ⟨x, hx⟩ := Option.isSome_iff_exists.mp hcandidate
    rw [RatingVector.get_eq hx] at hpredicted hscore
    exact ⟨⟨x, hx, hscore, hpredicted⟩, hunrated⟩

/-- **A ranking, cut to `n`, lists the first `n` of what qualifies.** -/
theorem firstIn_take {candidates : List Int} (rated : RatingVector Float)
    (hkeys : ∀ item, item ∈ predictions.keys ↔ item ∈ candidates) (n : Nat) :
    FirstIn Recommendation.Precedes (Qualifies predictions rated candidates) n
      ((ofPredictions predictions rated).take n).recommendations :=
  .of_take (precedes_ofPredictions predictions rated) fun _ => qualifies_iff hkeys

/-- The candidates that qualify. -/
def qualifying (predictions rated : RatingVector Float) (candidates : List Int) : Finset Int :=
  candidates.toFinset.filter fun item =>
    item ∉ rated.keys ∧ Arithmetic.isAbsent (predictions.get item) = false

/-- An item has one score, so recommendations are counted by their items. -/
theorem mem_image_qualifying {candidates : List Int} {rec : Recommendation Int} :
    rec ∈ (qualifying predictions rated candidates).image
        (fun item => ⟨item, .ofFloat (predictions.get item)⟩) ↔
      Qualifies predictions rated candidates rec := by
  simp only [qualifying, Finset.mem_image, Finset.mem_filter, List.mem_toFinset]
  constructor
  · rintro ⟨item, ⟨hcandidate, hunrated, hpredicted⟩, rfl⟩
    exact ⟨hcandidate, hunrated, hpredicted, rfl⟩
  · rintro ⟨hcandidate, hunrated, hpredicted, hscore⟩
    exact ⟨rec.item, ⟨hcandidate, hunrated, hpredicted⟩, by rw [← hscore]⟩

theorem card_image_qualifying (candidates : List Int) :
    ((qualifying predictions rated candidates).image
      (fun item => (⟨item, .ofFloat (predictions.get item)⟩ : Recommendation Int))).card =
      (qualifying predictions rated candidates).card :=
  Finset.card_image_of_injective _ fun _ _ heq => congrArg Recommendation.item heq

end Ranking

/-- Each item is listed once. -/
theorem Recommendation.nodup_items {recs : List (Recommendation Int)}
    {predictions rated : RatingVector Float} {candidates : List Int}
    (hordered : recs.Pairwise Precedes)
    (h : ∀ rec ∈ recs, Ranking.Qualifies predictions rated candidates rec) :
    (recs.map Recommendation.item).Nodup := by
  refine List.pairwise_map.mpr (hordered.imp_of_mem ?_)
  intro a b ha hb hab heq
  have hscore : a.score = b.score := by rw [(h a ha).score, (h b hb).score, heq]
  rcases hab with hab | ⟨-, hab⟩
  · exact absurd hab (by rw [hscore]; exact Int.lt_irrefl _)
  · exact absurd hab (by rw [heq]; exact Int.lt_irrefl _)

/-! ## 2. Recommendations of a predictor -/

namespace Predictor

variable [Transformation τ Float] {p : Predictor σ τ Float} {user : Int}
  {ratings : RatingVector Float} {candidates : List Int} {s s' : σ}

/-- A prediction for candidates has the candidates as its keys. -/
theorem mem_keys_predict {predictions : RatingVector Float}
    (h : (p.predict user ratings (some candidates)).runFrom s = (.ok predictions, s'))
    (item : Int) : item ∈ predictions.keys ↔ item ∈ candidates := by
  simp only [predict, CallM.runFrom_bind] at h
  split at h
  · split at h
    · split at h
      · simp only [CallM.runFrom_pure, Prod.mk.injEq, Except.ok.injEq] at h
        rw [← h.1, Transformation.keys_unapply, Neighborhoods.keys_scores]
        exact ItemSet.mem_keys_ofList
      · simp at h
    · simp at h
  · simp at h

theorem recommend_of_predicted {predictions : RatingVector Float}
    (h : (p.predict user ratings (some candidates)).runFrom s = (.ok predictions, s')) (n : Nat) :
    (p.recommend user ratings candidates n).runFrom s =
      (.ok ((Ranking.ofPredictions predictions ratings).take n), s') := by
  rw [recommend, CallM.runFrom_bind, h]
  rfl

theorem recommend_of_refused {e : RequestError}
    (h : (p.predict user ratings (some candidates)).runFrom s = (.error e, s')) (n : Nat) :
    (p.recommend user ratings candidates n).runFrom s = (.error e, s') := by
  rw [recommend, CallM.runFrom_bind, h]

/-- **The best `n` candidates are recommended.**  A recommendation is refused exactly when the
prediction for the candidates is, with the same error.  Otherwise it lists, each item once, the
first `n` of the candidates that are not rated and have a prediction, by descending score and then
by ascending item; if there are fewer it lists them all; and asking for more only adds to the end
of the list.

The transformation may be a caller's own.  That mapping ratings back keeps their keys is assumed of
it (`Transformation.keys_unapply`): it works in place, on values over fixed keys. -/
theorem recommend_firstIn (p : Predictor σ τ Float) (user : Int) (ratings : RatingVector Float)
    (candidates : List Int) (n : Nat) (s : σ) :
    (∀ e s', (p.recommend user ratings candidates n).runFrom s = (.error e, s') ↔
      (p.predict user ratings (some candidates)).runFrom s = (.error e, s')) ∧
    ∀ predictions s', (p.predict user ratings (some candidates)).runFrom s = (.ok predictions, s') →
      ∃ r, (p.recommend user ratings candidates n).runFrom s = (.ok r, s') ∧
        (r.recommendations.map Recommendation.item).Nodup ∧
        FirstIn Recommendation.Precedes (Ranking.Qualifies predictions ratings candidates) n
          r.recommendations ∧
        r.size = min n (Ranking.qualifying predictions ratings candidates).card ∧
        ∀ m, n ≤ m → ∃ longer,
          (p.recommend user ratings candidates m).runFrom s = (.ok longer, s') ∧
          r.recommendations = longer.recommendations.take n := by
  constructor
  · intro e s'
    refine ⟨fun hrec => ?_, fun hrefused => recommend_of_refused hrefused n⟩
    obtain ⟨outcome, s₁, hpredict⟩ : ∃ outcome s₁,
        (p.predict user ratings (some candidates)).runFrom s = (outcome, s₁) := ⟨_, _, rfl⟩
    cases outcome with
    | error e' =>
      rw [recommend_of_refused hpredict n, Prod.mk.injEq, Except.error.injEq] at hrec
      rw [hpredict, hrec.1, hrec.2]
    | ok predictions =>
      rw [recommend_of_predicted hpredict n] at hrec
      simp at hrec
  · intro predictions s' hpredict
    have hfirst := Ranking.firstIn_take ratings (mem_keys_predict hpredict) n
    refine ⟨_, recommend_of_predicted hpredict n,
      Recommendation.nodup_items hfirst.ordered hfirst.qualified, hfirst, ?_, ?_⟩
    · rw [← Ranking.card_image_qualifying]
      exact hfirst.length_eq Recommendation.not_precedes_self
        fun _ => Ranking.mem_image_qualifying
    · intro m hm
      refine ⟨_, recommend_of_predicted hpredict m, ?_⟩
      have hcut := Ranking.take_take (Ranking.ofPredictions predictions ratings) m n
      rw [Nat.min_eq_left hm] at hcut
      exact (congrArg Ranking.recommendations hcut).symm

end Predictor

/-- Neighbor 7 votes on three items and likes the first best. -/
def threeItems : Neighborhoods Float where
  vectors := #[.ofPairs [(1, 4.0), (2, 3.0), (3, 3.0)]]
  byItem := .ofList [(1, [⟨7, 0.5, ⟨0⟩⟩]), (2, [⟨7, 0.5, ⟨0⟩⟩]), (3, [⟨7, 0.5, ⟨0⟩⟩])]
  resolves := by decide
  nonempty := by decide

/-- Item 1 is rated, though with no number, and nobody votes on item 9.  Of the other two, which
score alike, the smaller comes first. -/
theorem recommend_firstIn_of_tie :
    ∃ predictions r,
      (Predictor.predict ⟨answering threeItems, .identity⟩ 0 (.ofPairs [(1, Arithmetic.absent)])
        (some [3, 1, 2, 9, 3])).runFrom () = (.ok predictions, ()) ∧
      (Predictor.recommend ⟨answering threeItems, .identity⟩ 0 (.ofPairs [(1, Arithmetic.absent)])
        [3, 1, 2, 9, 3] 1).runFrom () = (.ok r, ()) ∧
      FirstIn Recommendation.Precedes (Ranking.Qualifies predictions
        (.ofPairs [(1, Arithmetic.absent)]) [3, 1, 2, 9, 3]) 1 r.recommendations ∧
      r.recommendations = [⟨2, .ofFloat 3.0⟩] := by
  obtain ⟨-, hbest⟩ := Predictor.recommend_firstIn ⟨answering threeItems, .identity⟩ 0
    (.ofPairs [(1, Arithmetic.absent)]) [3, 1, 2, 9, 3] 1 ()
  obtain ⟨r, hrun, -, hfirst, -⟩ := hbest _ () rfl
  refine ⟨_, r, rfl, hrun, hfirst, ?_⟩
  have hr := congrArg (fun outcome => outcome.1.map Ranking.recommendations) hrun
  refine Except.ok.inj (hr.symm.trans ?_)
  decide +kernel

end PeerRatings
