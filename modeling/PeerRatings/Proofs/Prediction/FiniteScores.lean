/-
# When predictions are finite

The static finder lets in finite ratings and finite similarities only.  Without normalization a
prediction is the average of such votes (`static_identity_eq`), so the averages say all there is
to say: an item whose neighbors all have similarity zero gets no prediction, and any other item
gets the quotient of two sums, which is a number as long as nothing on the way is too large for a
double.

It can be too large.  A similarity may be any finite double, and one of the size of the largest
doubles makes the product with a rating overflow, or the weight, or both
(`static_identity_overflow`).  Then the prediction is infinite, or it is absent although somebody
could vote.  For ratings up to a power of two, `static_identity_finite_iff` says how large the
total weight may be.
-/
import PeerRatings.Proofs.Prediction.Averages
import PeerRatings.Proofs.Prediction.ItemIndependence
import PeerRatings.Proofs.StaticFinder.Choice

namespace PeerRatings

open Rounding Unpacked

variable {σ : Type}

/-! ## 1. The votes of the static finder -/

namespace StaticFinder

variable {f : StaticFinder} {user item : Int} {items : ItemSet} {N : Neighborhoods Float}

/-- A stored rating is finite. -/
theorem exists_reading_of_row {v : RatingVector Float} (hrow : f.table.row? user = some v)
    (hitem : v.contains item = true) : ∃ q, reading (v.get item) = .number q := by
  obtain ⟨x, hx⟩ := Option.isSome_iff_exists.mp hitem
  have hfinite := RatingTable.allFinite_of_row? hrow (item, x) (IdMap.get?_eq_some_iff.mp hx)
  rw [RatingVector.get_eq hx]
  exact isFinite_iff.mp hfinite

/-- Whoever is listed has a finite similarity, and a finite rating for the item. -/
theorem Answers.finite (h : Answers (f.eligible (f.candidates user)) items N) {n : Neighbor Float}
    (hn : n ∈ N.neighbors item) :
    Ballot.Finite ⟨n.similarity, N.rating n.ratings item⟩ := by
  obtain ⟨c, hc, -, hsim, hvector⟩ := h.exists_chosen hn
  obtain ⟨hmem, hrated⟩ := mem_of_mem_eligible hc
  refine ⟨hsim ▸ exists_reading_of_mem hmem, ?_⟩
  rw [Neighborhoods.rating, hvector]
  exact exists_reading_of_row (row?_of_mem_candidates hmem) hrated

/-- Whoever is listed votes. -/
theorem Answers.ballots_eq (h : Answers (f.eligible (f.candidates user)) items N) (item : Int) :
    N.ballots item =
      (N.neighbors item).map fun n => ⟨n.similarity, N.rating n.ratings item⟩ := by
  unfold Neighborhoods.ballots
  rw [← List.filterMap_eq_map]
  refine List.filterMap_congr fun n hn => ?_
  obtain ⟨q, hq⟩ := (h.finite hn).rating
  have hpresent : ¬ Arithmetic.isAbsent (N.rating n.ratings item) = true := by
    rw [isAbsent_iff, hq]
    nofun
  exact if_neg hpresent

end StaticFinder

/-! ## 2. Predictions without normalization -/

namespace Predictor

/-- Without normalization a vote's rating is the stored one. -/
theorem ratingOnce_identity {N : Neighborhoods Float} {item : Int} {n : Neighbor Float}
    (hn : n ∈ N.neighbors item) :
    N.ratingOnce (fitted .identity) item n = N.rating n.ratings item := by
  obtain ⟨v, hv⟩ := N.exists_vector hn
  have hsame : ((Method.fit .identity v.known).apply v) = v := Rescaling.apply_identity v
  refine (Neighborhoods.ratingOnce_fitted hn hv).trans ?_
  rw [hsame, Neighborhoods.rating, hv]
  rfl

/-- **Without normalization a prediction holds the averages.** -/
theorem static_identity_eq {f : StaticFinder} {user : Int} {ratings : RatingVector Float}
    {items? : Option (List Int)} {N : Neighborhoods Float} (s : σ)
    (hN : f.search user (items?.map ItemSet.ofList) = .ok N) :
    ((static f .identity).predict user ratings items?).runFrom s =
      (.ok (N.scores (N.scope items?)), s) := by
  have hscores : N.scoresOnce (fitted .identity) (N.scope items?) = N.scores (N.scope items?) := by
    unfold Neighborhoods.scoresOnce Neighborhoods.scores
    congr 1
    funext item _
    rw [Neighborhoods.score_eq_meanVote]
    exact meanVote_congr (List.forall₂_same.mpr fun n hn => ⟨rfl, ratingOnce_identity hn⟩)
  rw [predict_static s hN, hscores]
  exact congrArg (fun p => (Except.ok p, s)) (Rescaling.unapply_identity _)

/-- **When predictions are finite.**  An item of a prediction without normalization is absent if
all of its neighbors have similarity zero.  Otherwise it is finite exactly if the weighted sum of
its votes is not too large for a double and neither is the quotient by the total weight.  This is
so in particular, and the prediction is within the bound, if the ratings are bounded by a power of
two and the total weight times that bound is not too large. -/
theorem static_identity_finite_iff (f : StaticFinder) (user : Int) (ratings : RatingVector Float)
    (items? : Option (List Int)) (s : σ) :
    ∃ (N : Neighborhoods Float) (p : RatingVector Float),
      ((f.finder : Finder σ Float).find user ratings (items?.map ItemSet.ofList)).runFrom s =
        (.ok N, s) ∧
      ((static f .identity).predict user ratings items?).runFrom s = (.ok p, s) ∧
      p.keys = (N.scope items?).keys ∧
      ∀ item ∈ p.keys,
        ((∀ n ∈ N.neighbors item, reading n.similarity = .number 0) →
          Arithmetic.isAbsent (p.get item) = true) ∧
        ((∃ n ∈ N.neighbors item, reading n.similarity ≠ .number 0) →
          (Arithmetic.isFinite (p.get item) = true ↔ Ballot.Fits (N.ballots item)) ∧
          ∀ (k : ℕ) (w : ℚ), k ≤ 1023 →
            (∀ n ∈ N.neighbors item, ∀ q, reading (N.rating n.ratings item) = .number q →
              |q| ≤ 2 ^ k) →
            reading (Ballot.totalWeight (N.ballots item)) = .number w → 2 ^ k * w < limit →
            ∃ v, reading (p.get item) = .number v ∧ |v| ≤ 2 ^ k) := by
  obtain ⟨N, hN, hanswers⟩ := f.exists_search user (items?.map ItemSet.ofList)
  refine ⟨N, _, ?_, static_identity_eq s hN, Neighborhoods.keys_scores _ _, ?_⟩
  · rw [StaticFinder.finder, Finder.find_ofFunction, hN]
  intro item hitem
  have hvalue : RatingVector.get (N.scores (N.scope items?)) item =
      Ballot.average (N.ballots item) := by
    rw [Neighborhoods.keys_scores] at hitem
    obtain ⟨u, hu⟩ := Option.isSome_iff_exists.mp (IdMap.mem_keys_iff.mp hitem)
    refine RatingVector.get_eq ?_
    rw [Neighborhoods.get?_scores, hu]
    rfl
  have hballots := hanswers.ballots_eq item
  have hfinite : ∀ b ∈ N.ballots item, b.Finite := by
    rw [hballots]
    intro b hb
    obtain ⟨n, hn, rfl⟩ := List.mem_map.mp hb
    exact hanswers.finite hn
  rw [hvalue]
  refine ⟨fun hzero => ?_, ?_⟩
  · rw [Ballot.average_of_zero hfinite]
    · exact Arithmetic.isAbsent_absent
    · rw [hballots]
      intro b hb
      obtain ⟨n, hn, rfl⟩ := List.mem_map.mp hb
      exact hzero n hn
  · rintro ⟨n, hn, hne⟩
    have hsome : ∃ b ∈ N.ballots item, reading b.similarity ≠ .number 0 := by
      rw [hballots]
      exact ⟨_, List.mem_map.mpr ⟨n, hn, rfl⟩, hne⟩
    refine ⟨Ballot.average_finite_iff hfinite hsome, ?_⟩
    intro k w hk hratings hw hlimit
    refine Ballot.average_le hfinite hsome hk ?_ hw hlimit
    rw [hballots]
    intro b hb
    obtain ⟨m, hm, rfl⟩ := List.mem_map.mp hb
    exact hratings m hm

end Predictor

/-- Two users whose similarity to user 1 is a power of two near the largest double; that of user 2
to user 4 is small.  Both rate item 10, and user 2 rates item 11. -/
def steep : StaticFinder where
  table := ⟨.ofList [(2, .ofPairs [(10, 1.0), (11, 4.0)]), (3, .ofPairs [(10, 1.0)])], by
    unfold RatingVector.AllFinite
    decide +kernel⟩
  similarities := .ofList [(1, .ofList [(2, .ofBits 0x7fe0000000000000),
    (3, .ofBits 0x7fe0000000000000)]), (4, .ofList [(2, 0.5)])]
  maxNeighbors := 30
  minSimilarity? := none
  maxNeighbors_pos := by decide
  similarities_finite := by
    unfold SimilarityTable.AllFinite
    decide +kernel

/-- For user 4 the weight times the bound 4 of the ratings is 2, which is not too large, and the
prediction is within the bound. -/
theorem static_identity_finite_of_half :
    ∃ p, ((Predictor.static steep .identity).predict 4 .empty (some [11])).runFrom () =
        (.ok p, ()) ∧ ∃ v, reading (p.get 11) = .number v ∧ |v| ≤ 2 ^ 2 := by
  obtain ⟨N, p, hN, hp, hkeys, hitems⟩ :=
    Predictor.static_identity_finite_iff steep 4 .empty (some [11]) ()
  have hfacts : (steep.search 4 (some (.ofList [11]))).toOption.map (fun N => decide (
      N.neighbors 11 = [⟨2, 0.5, ⟨0⟩⟩] ∧ N.rating ⟨0⟩ 11 = 4.0 ∧
      Ballot.totalWeight (N.ballots 11) = 0.5)) = some true := by
    decide +kernel
  rw [StaticFinder.finder, Finder.find_ofFunction, Prod.mk.injEq, Option.map_some] at hN
  rw [hN.1] at hfacts
  obtain ⟨hneighbors, hrating, hweight⟩ := of_decide_eq_true (Option.some.inj hfacts)
  have hhalf : reading 0.5 = .number (2 ^ 52 * 2 ^ (-53 : ℤ)) :=
    reading_of_pack (by decide +kernel) (by norm_num) (by norm_num)
  have hfour : reading 4.0 = .number (2 ^ 52 * 2 ^ (-50 : ℤ)) :=
    reading_of_pack (by decide +kernel) (by norm_num) (by norm_num)
  have hmem : (11 : Int) ∈ p.keys := by
    rw [hkeys]
    exact ItemSet.mem_keys_ofList.mpr List.mem_cons_self
  refine ⟨p, hp, ((hitems 11 hmem).2 ⟨⟨2, 0.5, ⟨0⟩⟩, ?_, ?_⟩).2 2 (2 ^ 52 * 2 ^ (-53 : ℤ))
    (by norm_num) ?_ ?_ ?_⟩
  · simp [hneighbors]
  · rw [hhalf, Ne, Reading.number.injEq]
    positivity
  · intro n hn q hq
    rw [hneighbors, List.mem_singleton] at hn
    rw [hn, hrating, hfour] at hq
    rw [← Reading.number.inj hq]
    norm_num
  · rw [hweight, hhalf]
  · calc (2 : ℚ) ^ 2 * (2 ^ 52 * 2 ^ (-53 : ℤ)) = 2 ^ (1 : ℤ) := by norm_num
      _ < limit := zpow_lt_zpow_right₀ (by norm_num) (by norm_num)

/-- **Predictions need not be finite where somebody can vote.**  For item 10 the weighted sum and
the weight overflow, and no prediction is left; for item 11 only the weighted sum does. -/
theorem static_identity_overflow :
    ∃ (N : Neighborhoods Float) (p : RatingVector Float),
      (steep.finder.find 1 .empty (some (.ofList [10, 11]))).runFrom () = (.ok N, ()) ∧
      ((Predictor.static steep .identity).predict 1 .empty (some [10, 11])).runFrom () =
        (.ok p, ()) ∧
      (∀ n ∈ N.neighbors 10, Arithmetic.numLt Arithmetic.zero n.similarity = true) ∧
      (∀ n ∈ N.neighbors 11, Arithmetic.numLt Arithmetic.zero n.similarity = true) ∧
      (N.neighbors 10).length = 2 ∧ (N.neighbors 11).length = 1 ∧
      Arithmetic.isAbsent (p.get 10) = true ∧
      Arithmetic.isFinite (p.get 11) = false ∧ Arithmetic.isAbsent (p.get 11) = false := by
  obtain ⟨N, hN, -⟩ := steep.exists_search 1 (some (.ofList [10, 11]))
  have hfacts : (steep.search 1 (some (.ofList [10, 11]))).toOption.map (fun N => decide (
      (∀ n ∈ N.neighbors 10, Arithmetic.numLt Arithmetic.zero n.similarity = true) ∧
      (∀ n ∈ N.neighbors 11, Arithmetic.numLt Arithmetic.zero n.similarity = true) ∧
      (N.neighbors 10).length = 2 ∧ (N.neighbors 11).length = 1 ∧
      Arithmetic.isAbsent (RatingVector.get (N.scores (.ofList [10, 11])) 10) = true ∧
      Arithmetic.isFinite (RatingVector.get (N.scores (.ofList [10, 11])) 11) = false ∧
      Arithmetic.isAbsent (RatingVector.get (N.scores (.ofList [10, 11])) 11) = false)) =
        some true := by
    decide +kernel
  rw [hN] at hfacts
  refine ⟨N, _, ?_, Predictor.static_identity_eq () hN, of_decide_eq_true (Option.some.inj hfacts)⟩
  rw [StaticFinder.finder, Finder.find_ofFunction, hN]

end PeerRatings
