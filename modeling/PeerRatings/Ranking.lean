/-
# Rankings

A ranking lists recommendations from the highest score to the lowest, and its order is part of
its type.  Scores are compared bit for bit in the total order of doubles (`Score.key`), so every
list can be ranked, whatever its scores: `0.0` ranks above `-0.0`, and a NaN above everything or, if
it has the sign bit, below everything.

Sorting is **stable**: recommendations with the same score keep the order in which they came.
From predictions, which come by ascending item, that makes the smaller item the first of two with
the same score.

A ranking can be cut but not reordered, so whatever is cut off scores no higher than what stays.
-/
import PeerRatings.Arithmetic.TotalOrder
import PeerRatings.RatingVector
import PeerRatings.Sorting

namespace PeerRatings

/-! ## 1. Recommendations in order -/

/-- An item with its score. -/
structure Recommendation (ι : Type) where
  item : ι
  score : Score
  deriving DecidableEq

variable {ι : Type}

/-- `a` scores at least as high as `b`. -/
abbrev Recommendation.notBelow : Recommendation ι → Recommendation ι → Bool :=
  Sorting.byKey fun rec => (-rec.score.key, 0)

/-- No recommendation scores above an earlier one. -/
abbrev BestFirst (recs : List (Recommendation ι)) : Prop :=
  recs.Pairwise fun a b => b.score.key ≤ a.score.key

/-- Recommendations from the highest score to the lowest. -/
structure Ranking (ι : Type) where
  /-- The recommendations in their order. -/
  recommendations : List (Recommendation ι)
  /-- Scores never rise along the list. -/
  bestFirst : BestFirst recommendations
  deriving DecidableEq

namespace Recommendation

theorem notBelow_iff {a b : Recommendation ι} :
    a.notBelow b = true ↔ b.score.key ≤ a.score.key := by
  rw [Sorting.byKey_iff]
  omega

theorem bestFirst_sorted (recs : List (Recommendation ι)) :
    BestFirst (Sorting.sorted notBelow recs) :=
  (Sorting.pairwise_sorted Sorting.byKey_trans Sorting.byKey_total recs).imp notBelow_iff.1

end Recommendation

namespace Ranking

/-! ## 2. Making and cutting rankings -/

/-- Rank a list of recommendations. -/
def ofList (recs : List (Recommendation ι)) : Ranking ι :=
  ⟨Sorting.sorted Recommendation.notBelow recs, Recommendation.bestFirst_sorted recs⟩

/-- Rank what comes one by one, each turned into a recommendation as it comes. -/
def ofItems {β : Type} (scored : β → Recommendation ι) (items : List β) : Ranking ι :=
  ofList (items.foldl (fun recs item => recs ++ [scored item]) [])

/-- Keep the `n` best. -/
def take (r : Ranking ι) (n : Nat) : Ranking ι :=
  ⟨r.recommendations.take n, r.bestFirst.sublist (List.take_sublist n _)⟩

/-- The number of recommendations. -/
def size (r : Ranking ι) : Nat := r.recommendations.length

/-- Whether there is nothing to recommend. -/
def isEmpty (r : Ranking ι) : Bool := r.recommendations.isEmpty

/-- The items that can be recommended, ascending: those with a prediction, among them those that
have not been rated.  An item counts as rated as soon as it is a key of `rated`. -/
def eligible (predictions rated : RatingVector Float) : List (Recommendation Int) :=
  predictions.entries.filterMap fun e =>
    if Arithmetic.isAbsent e.2 || rated.contains e.1 then none else some ⟨e.1, .ofFloat e.2⟩

/-- Rank predictions, without the items that have no prediction and without those already
rated. -/
def ofPredictions (predictions rated : RatingVector Float) : Ranking Int :=
  ofList (eligible predictions rated)

/-- A ranking as it is written out: a score that is not finite leaves a gap. -/
def written (r : Ranking ι) : List (ι × Option Float) :=
  r.recommendations.map fun rec => (rec.item, RatingVector.written rec.score.value)

/-! ## 3. The view -/

/-- Ranking reorders and does nothing else. -/
theorem perm_ofList (recs : List (Recommendation ι)) : (ofList recs).recommendations.Perm recs :=
  Sorting.perm_sorted recs

/-- A ranking is its own ranking. -/
@[simp] theorem ofList_recommendations (r : Ranking ι) : ofList r.recommendations = r := by
  have h : Sorting.sorted Recommendation.notBelow r.recommendations = r.recommendations :=
    Sorting.sorted_of_pairwise (r.bestFirst.imp Recommendation.notBelow_iff.2)
  cases r
  simpa [ofList] using h

/-- Cutting twice is cutting once, at the shorter length. -/
theorem take_take (r : Ranking ι) (m n : Nat) : (r.take m).take n = r.take (min n m) := by
  simp [take, List.take_take]

/-- It makes no difference whether recommendations come one by one or as a list. -/
theorem ofItems_eq {β : Type} (scored : β → Recommendation ι) (items : List β) :
    ofItems scored items = ofList (items.map scored) := by
  rw [ofItems, List.foldl_append_eq_append, List.nil_append, ← List.flatMap_def,
    ← List.map_eq_flatMap]

/-- Predictions are ranked one by one as well, once those that do not count are left out. -/
theorem ofPredictions_eq_ofItems (predictions rated : RatingVector Float) :
    ofPredictions predictions rated =
      ofItems (fun e => ⟨e.1, .ofFloat e.2⟩) ((predictions.entries.filter fun e =>
        !Arithmetic.isAbsent e.2).filter fun e => !rated.contains e.1) := by
  rw [ofItems_eq, ofPredictions, eligible, ← List.filterMap_eq_map', List.filterMap_filter,
    List.filterMap_filter]
  refine congrArg (fun keep => ofList (predictions.entries.filterMap keep)) (funext fun e => ?_)
  cases Arithmetic.isAbsent e.2 <;> cases rated.contains e.1 <;> rfl

theorem mem_eligible_iff {predictions rated : RatingVector Float} {rec : Recommendation Int} :
    rec ∈ eligible predictions rated ↔
      (∃ x, predictions.get? rec.item = some x ∧ rec.score = .ofFloat x ∧
        Arithmetic.isAbsent x = false) ∧ rec.item ∉ rated.keys := by
  rw [← IdMap.contains_iff_mem_keys]
  simp only [IdMap.get?_eq_some_iff, eligible, List.mem_filterMap]
  constructor
  · rintro ⟨e, he, h⟩
    split at h
    · simp at h
    · rename_i hno
      obtain rfl := Option.some.inj h
      simp only [Bool.or_eq_true, not_or, Bool.not_eq_true] at hno
      exact ⟨⟨e.2, he, rfl, hno.1⟩, by simp [hno.2]⟩
  · rintro ⟨⟨x, he, hscore, hpresent⟩, hunrated⟩
    refine ⟨(rec.item, x), he, ?_⟩
    simp only [Bool.not_eq_true] at hunrated
    simp [hpresent, hunrated, ← hscore]

end Ranking

end PeerRatings
