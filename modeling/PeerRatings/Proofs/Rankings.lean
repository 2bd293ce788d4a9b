/-
# Rankings of any list

Any list of recommendations can be ranked, whatever its scores and its items are.  This file says
what comes out: the same recommendations, with no score above an earlier one in the total order of
doubles, and those with the same score, bit for bit, in the order in which they came
(`filter_score_ofList`).  A NaN ranks first or last, as its sign bit says.

Nothing is reversed to get the descending order.  The sort goes by a comparison that holds between
any two equal scores in both directions, and a part of a list whose elements all rank alike is one
that sorting does not touch (`Sorting.filter_sorted`).

A cut keeps a prefix and any number of cuts keeps the shortest one asked for (`prefix_foldl_take`,
`min?_size_foldl_take`).  Since the order is part of what a ranking is, a prefix is enough to know
that nothing left out is above anything kept (`not_above_of_left_out`).
-/
import PeerRatings.Proofs.Arithmetic.Order
import PeerRatings.Ranking

namespace PeerRatings

namespace Ranking

variable {ι : Type}

/-! ## 1. Equal scores -/

/-- **Recommendations with the same score keep their order.** -/
theorem filter_score_ofList (recs : List (Recommendation ι)) (x : Score) :
    (ofList recs).recommendations.filter (fun rec => rec.score = x) =
      recs.filter (fun rec => rec.score = x) := by
  refine Sorting.filter_sorted Sorting.byKey_trans Sorting.byKey_total ?_ recs
  intro a b ha hb
  have hscores : b.score = a.score := (of_decide_eq_true hb).trans (of_decide_eq_true ha).symm
  exact Recommendation.notBelow_iff.mpr (congrArg Score.key hscores).le

/-! ## 2. Cuts -/

theorem size_take (r : Ranking ι) (n : Nat) : (r.take n).size = min r.size n := by
  rw [size, take, List.length_take, Nat.min_comm, size]

/-- Cuts keep a prefix. -/
theorem prefix_foldl_take (r : Ranking ι) (ns : List Nat) :
    (ns.foldl take r).recommendations <+: r.recommendations := by
  induction ns generalizing r with
  | nil => exact List.prefix_rfl
  | cons n rest ih => exact (ih (r.take n)).trans (List.take_prefix n r.recommendations)

/-- The shortest cut counts, if it is shorter than the ranking. -/
theorem min?_size_foldl_take (r : Ranking ι) (ns : List Nat) :
    (r.size :: ns).min? = some (ns.foldl take r).size := by
  induction ns generalizing r with
  | nil => rfl
  | cons n rest ih =>
    rw [List.min?_cons', List.foldl_cons, ← size_take, ← List.min?_cons', ih, List.foldl_cons]

/-- **What a prefix leaves out is not above what it keeps.** -/
theorem not_above_of_left_out {r cut : Ranking ι}
    (h : cut.recommendations <+: r.recommendations) {kept dropped : Recommendation ι}
    (hkept : kept ∈ cut.recommendations) (hdropped : dropped ∈ r.recommendations.drop cut.size) :
    ¬ Above dropped.score kept.score := by
  obtain ⟨rest, hrest⟩ := h
  have hbest := r.bestFirst
  rw [← hrest, BestFirst, List.pairwise_append] at hbest
  rw [← hrest, size, List.drop_left] at hdropped
  exact Score.not_above_iff.mpr (hbest.2.2 kept hkept dropped hdropped)

/-! ## 3. Ranking and cutting any list -/

/-- **A list is ranked by descending score, and stably.**

* The order of scores is the numeric one, with `0.0` above `-0.0`, the NaNs without the sign bit
  above everything else and those with it below everything else.
* A ranking has the recommendations of the list, none of them with a score above an earlier one, and
  those that share a score, bit for bit, in the order of the list.
* Recommendations that come one by one are ranked alike.
* Ranking a ranking again changes nothing, and neither does ranking one again that has been cut.
* Cutting a ranking any number of times leaves the prefix whose length is the least of the length of
  the list and the lengths asked for, and nothing left out has a score above anything kept. -/
theorem ofList_ranks_stably (recs : List (Recommendation ι)) :
    (∀ x y : Score, x.key < y.key ↔ Above y x) ∧
    (ofList recs).recommendations.Perm recs ∧
    ((ofList recs).recommendations.Pairwise fun a b => ¬ Above b.score a.score) ∧
    (∀ x : Score, (ofList recs).recommendations.filter (fun rec => rec.score = x) =
      recs.filter (fun rec => rec.score = x)) ∧
    (∀ (β : Type) (scored : β → Recommendation ι) (items : List β),
      items.map scored = recs → ofItems scored items = ofList recs) ∧
    ofList (ofList recs).recommendations = ofList recs ∧
    ∀ ns : List Nat, ∃ cut, ns.foldl take (ofList recs) = cut ∧
      ofList cut.recommendations = cut ∧
      cut.recommendations <+: (ofList recs).recommendations ∧
      (recs.length :: ns).min? = some cut.size ∧
      ∀ kept ∈ cut.recommendations, ∀ dropped ∈ (ofList recs).recommendations.drop cut.size,
        ¬ Above dropped.score kept.score := by
  have hsize : (ofList recs).size = recs.length := (perm_ofList recs).length_eq
  refine ⟨fun _ _ => Score.key_lt_iff, perm_ofList recs,
    (ofList recs).bestFirst.imp Score.not_above_iff.mpr, filter_score_ofList recs, ?_,
    ofList_recommendations _, fun ns => ⟨_, rfl, ?_⟩⟩
  · rintro β scored items rfl
    exact ofItems_eq scored items
  · have hprefix := prefix_foldl_take (ofList recs) ns
    have hmin := min?_size_foldl_take (ofList recs) ns
    rw [hsize] at hmin
    exact ⟨ofList_recommendations _, hprefix, hmin,
      fun kept hkept dropped hdropped => not_above_of_left_out hprefix hkept hdropped⟩

/-- Scores of every kind, with items that come more than once and three different NaNs. -/
def mixedScores : List (Recommendation String) :=
  [⟨"a", .ofFloat (-0.0)⟩, ⟨"b", .ofFloat 4.5⟩, ⟨"a", .ofFloat 0.0⟩, ⟨"c", ⟨0x7ff8000000000000⟩⟩,
    ⟨"d", .ofFloat 4.5⟩, ⟨"g", ⟨0xfff8000000000000⟩⟩, ⟨"e", .ofFloat (-1.0 / 0.0)⟩,
    ⟨"b", .ofFloat 4.5⟩, ⟨"h", ⟨0x7ff8000000000001⟩⟩, ⟨"f", .ofFloat (1.0 / 0.0)⟩,
    ⟨"a", .ofFloat 4.5⟩]

/-- The NaNs without the sign bit come first and the one with it comes last, and the zero with a
sign comes after the one without.  The four recommendations with score `4.5` keep their order, and
of the cuts the one to three counts. -/
theorem ofList_ranks_stably_of_mixedScores :
    (ofList mixedScores).recommendations =
      [⟨"h", ⟨0x7ff8000000000001⟩⟩, ⟨"c", ⟨0x7ff8000000000000⟩⟩, ⟨"f", .ofFloat (1.0 / 0.0)⟩,
        ⟨"b", .ofFloat 4.5⟩, ⟨"d", .ofFloat 4.5⟩, ⟨"b", .ofFloat 4.5⟩, ⟨"a", .ofFloat 4.5⟩,
        ⟨"a", .ofFloat 0.0⟩, ⟨"a", .ofFloat (-0.0)⟩, ⟨"e", .ofFloat (-1.0 / 0.0)⟩,
        ⟨"g", ⟨0xfff8000000000000⟩⟩] ∧
    (ofList mixedScores).recommendations.filter (fun rec => rec.score = .ofFloat 4.5) =
      [⟨"b", .ofFloat 4.5⟩, ⟨"d", .ofFloat 4.5⟩, ⟨"b", .ofFloat 4.5⟩, ⟨"a", .ofFloat 4.5⟩] ∧
    ∃ cut, [5, 3, 8].foldl take (ofList mixedScores) = cut ∧ cut.size = 3 ∧
      ofList cut.recommendations = cut := by
  obtain ⟨-, -, -, hties, -, -, hcuts⟩ := ofList_ranks_stably mixedScores
  refine ⟨by decide +kernel, (hties (.ofFloat 4.5)).trans (by decide +kernel), ?_⟩
  obtain ⟨cut, hcut, hagain, -, hsize, -⟩ := hcuts [5, 3, 8]
  exact ⟨cut, hcut, Option.some.inj (hsize.symm.trans (by decide)), hagain⟩

/-- A NaN with the sign bit, and an infinity. -/
def signedNaN : List (Recommendation String) :=
  [⟨"a", ⟨0xfff8000000000000⟩⟩, ⟨"b", .ofFloat (1.0 / 0.0)⟩]

/-- **Not every NaN ranks above `+∞`.**  One with the sign bit is ranked behind it. -/
theorem ofList_infinity_before_nan :
    (ofList signedNaN).recommendations =
      [⟨"b", .ofFloat (1.0 / 0.0)⟩, ⟨"a", ⟨0xfff8000000000000⟩⟩] ∧
    Arithmetic.isAbsent (Score.value ⟨0xfff8000000000000⟩) = true ∧
    ¬ ∀ recs : List (Recommendation String), (ofList recs).recommendations.Pairwise fun a b =>
      a.score = .ofFloat (1.0 / 0.0) → Arithmetic.isAbsent b.score.value = false := by
  have hranked : (ofList signedNaN).recommendations =
      [⟨"b", .ofFloat (1.0 / 0.0)⟩, ⟨"a", ⟨0xfff8000000000000⟩⟩] := by decide +kernel
  have hnan : Arithmetic.isAbsent (Score.value ⟨0xfff8000000000000⟩) = true := by decide +kernel
  refine ⟨hranked, hnan, fun h => ?_⟩
  have hpair := h signedNaN
  rw [hranked, List.pairwise_pair] at hpair
  rw [hpair rfl] at hnan
  cases hnan

end Ranking

end PeerRatings
