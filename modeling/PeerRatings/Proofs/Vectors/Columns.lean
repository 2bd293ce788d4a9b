/-
# Columns and pairs

A vector can be taken as it stands, as a column of keys and a column of values, or be built from
pairs in any order.  The first way is checked and never sorts, the second sorts and is never
refused.  This file says that they agree.

The check goes by neighboring keys, and that is enough for the whole column (`isAscending_iff`).
So what is accepted is in the one order that a vector has, and the pairs of the two columns are its
entries (`of_ofColumns?`).  No key is on them twice, hence no pair can take the place of another one
when they are entered, and the order in which they are entered makes no difference
(`ofPairs_of_ofColumns?`).

A blank vector is one whose values are all absent, so for it the lengths always agree and only the
order of the keys is checked.  The list of an item set is in order, which is what lets a prediction
write its scores without a way to fail.
-/
import PeerRatings.ItemSet
import PeerRatings.Proofs.Vectors.FiniteMap
import PeerRatings.Proofs.Vectors.Pairs

namespace PeerRatings.RatingVector

variable {α : Type} {keys : List Int} {values : List α} {v : RatingVector α}

/-! ## 1. What is accepted -/

theorem ofColumns?_of_lengths_ne (h : keys.length ≠ values.length) :
    ofColumns? keys values = .error (.mismatchedLengths keys.length values.length) :=
  dif_neg h

theorem ofColumns?_of_unsorted (hlen : keys.length = values.length)
    (h : ¬ keys.Pairwise (· < ·)) : ofColumns? keys values = .error .unsortedKeys := by
  rw [ofColumns?, dif_pos hlen, dif_neg fun hasc => h (isAscending_iff.mp hasc)]

theorem exists_ofColumns? (hlen : keys.length = values.length) (h : keys.Pairwise (· < ·)) :
    ∃ v, ofColumns? keys values = .ok v ∧ v.entries = keys.zip values := by
  rw [ofColumns?, dif_pos hlen, dif_pos (isAscending_iff.mpr h)]
  exact ⟨_, rfl, rfl⟩

/-- Columns that are accepted are of one length, with their keys in order, and pair the entries of
the vector. -/
theorem of_ofColumns? (h : ofColumns? keys values = .ok v) :
    keys.length = values.length ∧ keys.Pairwise (· < ·) ∧ v.entries = keys.zip values := by
  have hlen : keys.length = values.length := by
    by_contra hne
    rw [ofColumns?_of_lengths_ne hne] at h
    cases h
  have hasc : keys.Pairwise (· < ·) := by
    by_contra hnot
    rw [ofColumns?_of_unsorted hlen hnot] at h
    cases h
  obtain ⟨w, hw, hentries⟩ := exists_ofColumns? hlen hasc
  obtain rfl := Except.ok.inj (h.symm.trans hw)
  exact ⟨hlen, hasc, hentries⟩

/-- **Columns are accepted exactly if they are equally long and the keys ascend strictly.** -/
theorem ofColumns?_ok_iff :
    (∃ v, ofColumns? keys values = .ok v) ↔
      keys.length = values.length ∧ keys.Pairwise (· < ·) := by
  constructor
  · rintro ⟨v, hv⟩
    obtain ⟨hlen, hasc, -⟩ := of_ofColumns? hv
    exact ⟨hlen, hasc⟩
  · rintro ⟨hlen, hasc⟩
    obtain ⟨v, hv, -⟩ := exists_ofColumns? hlen hasc
    exact ⟨v, hv⟩

/-- For a blank vector only the order of the keys counts. -/
theorem blank?_ok_iff [Arithmetic α] :
    (∃ v : RatingVector α, blank? keys = .ok v) ↔ keys.Pairwise (· < ·) := by
  rw [show (blank? keys : Except _ (RatingVector α)) = ofColumns? keys _ from rfl,
    ofColumns?_ok_iff, List.length_replicate, and_iff_right rfl]

/-! ## 2. The same vector from pairs -/

/-- **The pairs of the columns make the same vector, in any order.** -/
theorem ofPairs_of_ofColumns? {pairs : List (Int × α)} (h : ofColumns? keys values = .ok v)
    (hpairs : pairs.Perm (keys.zip values)) : ofPairs pairs = v := by
  obtain ⟨-, -, hentries⟩ := of_ofColumns? h
  refine IdMap.ofList_of_mem_iff fun pair => ?_
  rw [hpairs.mem_iff, hentries]

/-- **Columns and pairs make the same vectors.**

* Two columns are accepted exactly if they are equally long and every earlier key is less than every
  later one.  Columns of different lengths are refused with both lengths, whatever the keys are, and
  equally long ones whose keys are not in order because of that.
* The vector of columns that are accepted is the vector of their pairs, listed in any order.
* The columns of every vector, whichever operations it went through, make that vector.
* A blank vector is made over keys exactly if they ascend strictly, so it is made over the list of
  every item set. -/
theorem columns_and_pairs_agree [Arithmetic α] (keys : List Int) (values : List α) :
    ((∃ v, ofColumns? keys values = .ok v) ↔
      keys.length = values.length ∧ keys.Pairwise (· < ·)) ∧
    (keys.length ≠ values.length →
      ofColumns? keys values = .error (.mismatchedLengths keys.length values.length)) ∧
    (keys.length = values.length → ¬ keys.Pairwise (· < ·) →
      ofColumns? keys values = .error .unsortedKeys) ∧
    (∀ v, ofColumns? keys values = .ok v →
      ∀ pairs : List (Int × α), pairs.Perm (keys.zip values) → ofPairs pairs = v) ∧
    (∀ (access : Access) (v : RatingVector α), Reached access v →
      ofColumns? v.keys v.values = .ok v) ∧
    ((∃ v : RatingVector α, blank? keys = .ok v) ↔ keys.Pairwise (· < ·)) ∧
    ∀ items : ItemSet, ∃ v : RatingVector α, blank? items.keys = .ok v :=
  ⟨ofColumns?_ok_iff, ofColumns?_of_lengths_ne, ofColumns?_of_unsorted,
    fun _ hv _ hpairs => ofPairs_of_ofColumns? hv hpairs, fun _ v _ => ofColumns?_columns v,
    blank?_ok_iff, fun items => blank?_ok_iff.mpr items.keys_ascending⟩

/-- The pairs of two columns, listed backwards, make the vector of the columns.  A key too many is
noticed before the order of the keys is. -/
theorem columns_and_pairs_agree_of_reversed :
    (∃ v, ofColumns? [1, 3, 7] [4.0, Arithmetic.absent, -0.0] = .ok v ∧
      ofPairs [(7, -0.0), (3, Arithmetic.absent), (1, 4.0)] = v) ∧
    ofColumns? [3, 1] [(4.0 : Float)] = .error (.mismatchedLengths 2 1) ∧
    ofColumns? [3, 1] [(4.0 : Float), 2.0] = .error .unsortedKeys := by
  obtain ⟨haccepted, -, -, hpairs, -⟩ :=
    columns_and_pairs_agree [1, 3, 7] [(4.0 : Float), Arithmetic.absent, -0.0]
  obtain ⟨-, hlengths, -⟩ := columns_and_pairs_agree [3, 1] [(4.0 : Float)]
  obtain ⟨-, -, hunsorted, -⟩ := columns_and_pairs_agree [3, 1] [(4.0 : Float), 2.0]
  obtain ⟨v, hv⟩ := haccepted.mpr ⟨rfl, by decide⟩
  have hreversed :=
    List.reverse_perm ([(1 : Int), 3, 7].zip [(4.0 : Float), Arithmetic.absent, -0.0])
  exact ⟨⟨v, hv, hpairs v hv _ hreversed⟩, hlengths (by decide), hunsorted rfl (by decide)⟩

end PeerRatings.RatingVector
