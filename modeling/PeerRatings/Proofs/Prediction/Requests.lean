/-
# A request is a set

A caller names the items of a request in some order, and maybe some of them twice.  Neither can be
seen in an answer.  The argument has two halves:

* **A set has one form.**  The list of an item set is what is left of the caller's list once it is
  sorted and every item that repeats the one in front of it is dropped (`keys_ofList_eq_destutter`).
  Which sort is used makes no difference, since equal ids cannot be told apart.  Two requests make
  the same set exactly if they name the same items.
* **Nothing behind the set sees the list.**  A predictor makes the set before it calls anybody
  (`predict_congr_items`), so two requests with the same set take the same course: the same calls,
  the same result or the same refusal, and the same state of the collaborators afterwards.

The second half asks nothing of the collaborators.  Where they are functions of their arguments
there is no state to speak of, and the answers are equal outright.
-/
import Mathlib.Data.List.Destutter
import PeerRatings.Proofs.Prediction.Recommendations
import PeerRatings.Proofs.Prediction.Scores
import PeerRatings.Proofs.Vectors.FiniteMap

namespace PeerRatings

/-! ## 1. One form for every set -/

namespace ItemSet

/-- **The list of a set is the sorted list without repeats**, whatever the sort. -/
theorem keys_ofList_eq_destutter {items sorted : List Int} (hperm : sorted.Perm items)
    (hsorted : sorted.Pairwise (· ≤ ·)) : (ofList items).keys = sorted.destutter (· ≠ ·) := by
  refine List.Pairwise.eq_of_mem_iff (ofList items).keys_ascending ?_ ?_
  · have hle : (sorted.destutter (· ≠ ·)).Pairwise (· ≤ ·) :=
      hsorted.sublist (List.destutter_sublist _ _)
    have hne : (sorted.destutter (· ≠ ·)).Nodup := by
      rw [hsorted.destutter_eq_dedup]
      exact List.nodup_dedup _
    exact (List.pairwise_and_iff.mpr ⟨hle, hne⟩).imp fun h => Int.lt_iff_le_and_ne.mpr h
  · intro item
    rw [hsorted.destutter_eq_dedup, List.mem_dedup, hperm.mem_iff, mem_keys_ofList]

/-- The set of a list contains the members of the list. -/
theorem contains_ofList_iff {items : List Int} {item : Int} :
    (ofList items).contains item ↔ item ∈ items :=
  IdMap.contains_iff_mem_keys.trans mem_keys_ofList

end ItemSet

/-! ## 2. Requests for the same set -/

namespace Predictor

variable {σ τ : Type} [Transformation τ Float] {p : Predictor σ τ Float} {user : Int}
  {ratings : RatingVector Float} {a b : List Int}

theorem predict_congr_items (h : ItemSet.ofList a = ItemSet.ofList b) :
    p.predict user ratings (some a) = p.predict user ratings (some b) := by
  rw [predict, predict, Option.map_some, Option.map_some, h]

theorem recommend_congr_items (h : ItemSet.ofList a = ItemSet.ofList b) (n : Nat) :
    p.recommend user ratings a n = p.recommend user ratings b n := by
  rw [recommend, recommend, predict_congr_items h]

/-- **A request is a set.**

* Two lists make the same item set exactly if they have the same members.  The set lists its items
  in strictly ascending order, namely as the sorted list without repeats; it has the members of the
  list, and halving finds them; and the set of its own items is the set again.
* Let two requests name the same items.  Then predictions end alike, with the same result or the
  same refusal, whatever the collaborators, and leave them in the same state; and so do
  recommendations with the two as candidates. -/
theorem request_acts_as_set (p : Predictor σ τ Float) (user : Int) (ratings : RatingVector Float)
    (s : σ) :
    (∀ a b : List Int, ItemSet.ofList a = ItemSet.ofList b ↔ ∀ item, item ∈ a ↔ item ∈ b) ∧
    (∀ a : List Int, (ItemSet.ofList a).keys.Pairwise (· < ·)) ∧
    (∀ a sorted : List Int, sorted.Perm a → sorted.Pairwise (· ≤ ·) →
      (ItemSet.ofList a).keys = sorted.destutter (· ≠ ·)) ∧
    (∀ (a : List Int) (item : Int), ((ItemSet.ofList a).contains item ↔ item ∈ a) ∧
      ((bisect (ItemSet.ofList a).keys item 0 (ItemSet.ofList a).keys.length).isSome ↔
        item ∈ a)) ∧
    (∀ items : ItemSet, ItemSet.ofList items.keys = items) ∧
    ∀ a b : List Int, (∀ item, item ∈ a ↔ item ∈ b) →
      (p.predict user ratings (some a)).runFrom s = (p.predict user ratings (some b)).runFrom s ∧
      ∀ n, (p.recommend user ratings a n).runFrom s = (p.recommend user ratings b n).runFrom s := by
  refine ⟨fun a b => ItemSet.ofList_eq_ofList_iff, fun a => (ItemSet.ofList a).keys_ascending,
    fun a sorted => ItemSet.keys_ofList_eq_destutter,
    fun a item => ⟨ItemSet.contains_ofList_iff, ?_⟩,
    ItemSet.ofList_keys, ?_⟩
  · exact (RatingVector.isSome_place?_iff (v := ItemSet.ofList a)).trans ItemSet.mem_keys_ofList
  · intro a b hmem
    have hset : ItemSet.ofList a = ItemSet.ofList b := ItemSet.ofList_eq_ofList_iff.mpr hmem
    exact ⟨by rw [predict_congr_items hset], fun n => by rw [recommend_congr_items hset]⟩

end Predictor

/-- Two requests that name items 1, 2, 3 and 9, in two orders and each with another item twice. -/
theorem request_acts_as_set_of_repeats :
    (∀ item : Int, item ∈ [3, 1, 2, 9, 3] ↔ item ∈ [9, 2, 2, 1, 3]) ∧
      [(1 : Int), 2, 3, 3, 9].Perm [3, 1, 2, 9, 3] ∧ [(1 : Int), 2, 3, 3, 9].Pairwise (· ≤ ·) ∧
      (ItemSet.ofList [3, 1, 2, 9, 3]).keys = [1, 2, 3, 9] ∧
      ∃ r, (Predictor.recommend ⟨answering threeItems, .identity⟩ 0 .empty [3, 1, 2, 9, 3]
          2).runFrom () = (.ok r, ()) ∧
        (Predictor.recommend ⟨answering threeItems, .identity⟩ 0 .empty [9, 2, 2, 1, 3]
          2).runFrom () = (.ok r, ()) ∧
        r.recommendations = [⟨1, .ofFloat 4.0⟩, ⟨2, .ofFloat 3.0⟩] := by
  have hmem : ∀ item : Int, item ∈ [3, 1, 2, 9, 3] ↔ item ∈ [9, 2, 2, 1, 3] := by
    intro item
    simp only [List.mem_cons, List.not_mem_nil, or_false]
    omega
  have hperm : [(1 : Int), 2, 3, 3, 9].Perm [3, 1, 2, 9, 3] := by decide
  have hsorted : [(1 : Int), 2, 3, 3, 9].Pairwise (· ≤ ·) := by decide
  obtain ⟨-, -, hlist, -, -, hsame⟩ :=
    Predictor.request_acts_as_set ⟨answering threeItems, .identity⟩ 0 .empty ()
  refine ⟨hmem, hperm, hsorted, ?_, _, rfl, ((hsame _ _ hmem).2 2).symm, ?_⟩
  · rw [hlist _ _ hperm hsorted]
    decide
  · decide +kernel

end PeerRatings
