/-
# No prediction

Where nobody can vote on an item there is no prediction for it, and the caller is told so: the item
is a key of the prediction, its value is absent, and it is not recommended.  The value is made
before the ratings are mapped back to the scale of the user, so it has to survive that.  It does
for every transformation that a method of this library can choose, be its offset and scale as odd
as the ratings they came from: an absent double absorbs, in products and in sums
(`Rescaling.isAbsent_backward`).

Who can vote is said by the neighborhoods that the pass leaves (`NoVote`).  A rating that is not
there counts as absent, and so does one that was there and came out absent; a weight that is absent
is not positive.  The map back only ever keeps or loses a prediction, it makes none.
-/
import PeerRatings.Normalization.Method
import PeerRatings.Proofs.Arithmetic.Doubles
import PeerRatings.Proofs.Prediction.Fitted
import PeerRatings.Proofs.Prediction.Recommendations

namespace PeerRatings

variable {σ α : Type}

/-! ## 1. Nobody can vote -/

/-- Nobody can vote: no entry has a rating, or those that have one carry no positive weight. -/
def NoVote [Arithmetic α] (rating : Neighbor α → α) (entries : List (Neighbor α)) : Prop :=
  (∀ n ∈ entries, Arithmetic.isAbsent (rating n) = true) ∨
    Arithmetic.numLt Arithmetic.zero (voteWeight rating entries) = false

instance [Arithmetic α] (rating : Neighbor α → α) (entries : List (Neighbor α)) :
    Decidable (NoVote rating entries) :=
  inferInstanceAs (Decidable (_ ∨ _))

theorem NoVote.isAbsent_meanVote {rating : Neighbor Float → Float} {entries : List (Neighbor Float)}
    (h : NoVote rating entries) : Arithmetic.isAbsent (meanVote rating entries) = true := by
  have hweight : Arithmetic.numLt Arithmetic.zero (voteWeight rating entries) = false := by
    rcases h with habsent | hweight
    · rw [voteWeight_of_absent habsent]
      decide +kernel
    · exact hweight
  rw [meanVote_of_weight hweight]
  exact Arithmetic.isAbsent_absent

/-! ## 2. On the way back and in a ranking -/

/-- **What is absent is absent after the way back**, whatever the offset and the scale are. -/
theorem Rescaling.isAbsent_backward (t : Rescaling Float) {x : Float}
    (h : Arithmetic.isAbsent x = true) : Arithmetic.isAbsent (t.backward x) = true := by
  cases t with
  | identity => exact h
  | shiftScale offset scale =>
    have hscaled : reading (x * scale) = .absent := reading_mul_of_absent (isAbsent_iff.mp h) scale
    exact isAbsent_iff.mpr (reading_add_of_absent hscaled offset)

/-- An item without a prediction is not listed. -/
theorem Ranking.item_ne_of_absent {predictions rated : RatingVector Float} {item : Int}
    (h : Arithmetic.isAbsent (predictions.get item) = true) {n : Nat} {rec : Recommendation Int}
    (hrec : rec ∈ ((ofPredictions predictions rated).take n).recommendations) :
    rec.item ≠ item := by
  rintro rfl
  rw [take] at hrec
  have hmem := (perm_ofList _).mem_iff.mp (List.mem_of_mem_take hrec)
  obtain ⟨⟨x, hx, -, hpresent⟩, -⟩ := mem_eligible_iff.mp hmem
  rw [RatingVector.get_eq hx, hpresent] at h
  cases h

/-! ## 3. Predictions and recommendations -/

/-- A value of a prediction is the score, mapped back. -/
theorem Rescaling.get_unapply_scores {N : Neighborhoods Float} {items : ItemSet} {item : Int}
    (t : Rescaling Float) (h : item ∈ items.keys) :
    RatingVector.get (t.unapply (N.scores items)) item =
      t.backward (meanVote (fun n => N.rating n.ratings item) (N.neighbors item)) := by
  obtain ⟨u, hu⟩ := Option.isSome_iff_exists.mp (IdMap.mem_keys_iff.mp h)
  refine RatingVector.get_eq ?_
  rw [get?_unapply, Neighborhoods.get?_scores, hu, ← N.score_eq_meanVote]
  rfl

/-- **No prediction stays no prediction.**  Whatever the finder answers with and whatever the
ratings are, the pass succeeds, and with `N'` for what it leaves the prediction has as its keys
the items asked for, or those with neighbors, and as its values the means over `N'`, mapped back.
An item on which nobody in `N'` can vote is absent, and is never recommended. -/
theorem Predictor.predict_no_vote (m : Method) {finder : Finder σ Float} {user : Int}
    {ratings : RatingVector Float} {items? : Option (List Int)} {N : Neighborhoods Float}
    {s s' : σ}
    (hfind : (finder.find user ratings (items?.map ItemSet.ofList)).runFrom s = (.ok N, s')) :
    ∃ (N' : Neighborhoods Float) (p : RatingVector Float),
      (m.normalizer.normalized N).runFrom s' = (.ok N', s') ∧
      (Predictor.predict ⟨finder, m.normalizer⟩ user ratings items?).runFrom s = (.ok p, s') ∧
      (∀ item, item ∈ p.keys ↔
        items?.elim (N.neighbors item ≠ []) fun items => item ∈ items) ∧
      ∀ item ∈ p.keys,
        p.get item = (m.fit ratings.known).backward
          (meanVote (fun n => N'.rating n.ratings item) (N.neighbors item)) ∧
        (NoVote (fun n => N'.rating n.ratings item) (N.neighbors item) →
          Arithmetic.isAbsent (p.get item) = true ∧
          ∀ candidates, items? = some candidates → ∀ n, ∃ r,
            (Predictor.recommend ⟨finder, m.normalizer⟩ user ratings candidates n).runFrom s =
              (.ok r, s') ∧
            ∀ rec ∈ r.recommendations, rec.item ≠ item) := by
  rw [m.normalizer_eq_fitted]
  obtain ⟨N', hnormalized, honce, hpredict⟩ := exists_normalized_fitted hfind
  have hkeys : ((m.fit ratings.known).unapply (N'.scores (N.scope items?))).keys =
      (N.scope items?).keys :=
    (Transformation.keys_unapply (m.fit ratings.known) _).trans (Neighborhoods.keys_scores ..)
  refine ⟨N', _, hnormalized, hpredict, ?_, ?_⟩
  · intro item
    rw [hkeys]
    exact Neighborhoods.mem_scope_iff
  · intro item hitem
    have hvalue := (m.fit ratings.known).get_unapply_scores (N := N') (hkeys ▸ hitem)
    rw [honce.entries] at hvalue
    refine ⟨hvalue, fun hnone => ?_⟩
    have habsent : Arithmetic.isAbsent (RatingVector.get
        ((m.fit ratings.known).unapply (N'.scores (N.scope items?))) item) = true := by
      rw [hvalue]
      exact Rescaling.isAbsent_backward _ hnone.isAbsent_meanVote
    refine ⟨habsent, ?_⟩
    rintro candidates rfl n
    exact ⟨_, recommend_of_predicted hpredict n, fun _ => Ranking.item_ne_of_absent habsent⟩

/-- Neighbor 7 rates item 1 only and is listed for items 1 and 2, neighbor 8 has a similarity that
is absent, and the similarity of neighbor 9 is zero. -/
def withoutVotes : Neighborhoods Float where
  vectors := #[.ofPairs [(1, 4.0)], .ofPairs [(3, 2.0), (4, 5.0)]]
  byItem := .ofList [(1, [⟨7, 0.5, ⟨0⟩⟩]), (2, [⟨7, 0.5, ⟨0⟩⟩]), (3, [⟨8, 0.0 / 0.0, ⟨1⟩⟩]),
    (4, [⟨9, 0.0, ⟨1⟩⟩])]
  resolves := by decide
  nonempty := by decide

/-- Of the candidates only item 1 has a vote, and nobody is listed for item 5.  The user comes with
an infinite rating, and so with an infinite offset. -/
theorem predict_no_vote_of_zero_weights :
    ∃ p, (Predictor.predict ⟨answering withoutVotes, Method.normalizer .meanVariance⟩ 1
        (.ofPairs [(8, 3.0), (9, 1.0 / 0.0)]) (some [5, 4, 3, 2, 1])).runFrom () = (.ok p, ()) ∧
      ∀ item ∈ [2, 3, 4, 5], item ∈ p.keys ∧ Arithmetic.isAbsent (p.get item) = true ∧ ∃ r,
        (Predictor.recommend ⟨answering withoutVotes, Method.normalizer .meanVariance⟩ 1
          (.ofPairs [(8, 3.0), (9, 1.0 / 0.0)]) [5, 4, 3, 2, 1] 4).runFrom () = (.ok r, ()) ∧
        ∀ rec ∈ r.recommendations, rec.item ≠ item := by
  have hfind : ((answering withoutVotes).find 1 (.ofPairs [(8, 3.0), (9, 1.0 / 0.0)])
      ((some [5, 4, 3, 2, 1]).map ItemSet.ofList)).runFrom () = (.ok withoutVotes, ()) := rfl
  obtain ⟨N', p, hnormalized, hpredict, hkeys, hitems⟩ :=
    Predictor.predict_no_vote .meanVariance hfind
  have hnone : (((Method.meanVariance.normalizer : Normalizer Unit _ Float).normalized
      withoutVotes).runFrom ()).1.toOption.map (fun N' : Neighborhoods Float =>
        decide (∀ item ∈ ([2, 3, 4, 5] : List Int),
          NoVote (fun n => N'.rating n.ratings item) (withoutVotes.neighbors item))) =
            some true := by
    decide +kernel
  rw [hnormalized] at hnone
  have hasked : ∀ item ∈ [2, 3, 4, 5], item ∈ ([5, 4, 3, 2, 1] : List Int) := by decide
  refine ⟨p, hpredict, fun item hitem => ?_⟩
  have hmem : item ∈ p.keys := (hkeys item).mpr (hasked item hitem)
  obtain ⟨habsent, hrecommend⟩ :=
    (hitems item hmem).2 (of_decide_eq_true (Option.some.inj hnone) item hitem)
  exact ⟨hmem, habsent, hrecommend _ rfl 4⟩

end PeerRatings
