/-
# Stable sorting that evaluates

Rankings and neighbor lists are sorted stably.  The sort here is the library's merge sort, written
so that **a closed list sorts in the kernel**: merging recurses on its first list and, inside, on
its second, and sorting recurses on a bound for the length.

It computes the same list as `List.mergeSort` (`sorted_eq_mergeSort`), so everything that is known
about that function, order, permutation and stability, holds here.

What is sorted is compared by two integers, the second of which decides where the first are equal
(`byKey`).  That such a comparison is transitive and total is said once, whatever the integers are.
-/

namespace PeerRatings.Sorting

variable {α : Type}

/-! ## 1. Merging -/

/-- Merge `x`, followed by what `rest` merges, into a list. -/
def mergeHead (le : α → α → Bool) (x : α) (rest : List α → List α) : List α → List α
  | [] => x :: rest []
  | y :: ys => if le x y then x :: rest (y :: ys) else y :: mergeHead le x rest ys

/-- Merge two sorted lists.  Of two elements that rank alike, the one from the first list comes
first. -/
def merge (le : α → α → Bool) : List α → List α → List α
  | [] => id
  | x :: xs => mergeHead le x (merge le xs)

theorem merge_eq_merge (le : α → α → Bool) (xs ys : List α) :
    merge le xs ys = xs.merge ys le := by
  induction xs generalizing ys with
  | nil => simp [merge]
  | cons x xs ih =>
    induction ys with
    | nil => simp [merge, mergeHead, ih]
    | cons y ys ihy =>
      simp only [merge] at ihy
      rw [merge, mergeHead, List.cons_merge_cons, ih, ihy]

/-! ## 2. Sorting -/

/-- Sort a list of at most `bound` elements. -/
def sortUpTo (le : α → α → Bool) : Nat → List α → List α
  | 0, xs => xs
  | bound + 1, xs =>
    match xs with
    | [] => []
    | [x] => [x]
    | x :: y :: rest =>
      let half := (rest.length + 3) / 2
      merge le (sortUpTo le bound ((x :: y :: rest).take half))
        (sortUpTo le bound ((x :: y :: rest).drop half))

/-- Sort a list, keeping the order of elements that rank alike. -/
def sorted (le : α → α → Bool) (xs : List α) : List α := sortUpTo le xs.length xs

theorem sortUpTo_eq_mergeSort (le : α → α → Bool) (bound : Nat) (xs : List α)
    (h : xs.length ≤ bound) : sortUpTo le bound xs = xs.mergeSort le := by
  induction bound generalizing xs with
  | zero =>
    have hnil : xs = [] := List.eq_nil_of_length_eq_zero (Nat.le_zero.1 h)
    simp [hnil, sortUpTo]
  | succ bound ih =>
    match xs, h with
    | [], _ => simp [sortUpTo]
    | [x], _ => simp [sortUpTo]
    | x :: y :: rest, h =>
      simp only [List.length_cons] at h
      have hfirst := ih ((x :: y :: rest).take ((rest.length + 3) / 2)) (by
        simp only [List.length_take, List.length_cons]
        omega)
      have hsecond := ih ((x :: y :: rest).drop ((rest.length + 3) / 2)) (by
        simp only [List.length_drop, List.length_cons]
        omega)
      rw [sortUpTo, List.mergeSort, merge_eq_merge, hfirst, hsecond]
      simp only [List.MergeSort.Internal.splitInTwo_fst, List.MergeSort.Internal.splitInTwo_snd,
        List.length_cons]

/-- **The sort is merge sort.** -/
theorem sorted_eq_mergeSort (le : α → α → Bool) (xs : List α) :
    sorted le xs = xs.mergeSort le :=
  sortUpTo_eq_mergeSort le xs.length xs (Nat.le_refl _)

/-! ## 3. What is known of it -/

variable {le : α → α → Bool}

/-- Sorting reorders and does nothing else. -/
theorem perm_sorted (xs : List α) : (sorted le xs).Perm xs := by
  rw [sorted_eq_mergeSort]
  exact List.mergeSort_perm xs le

/-- The result is in order. -/
theorem pairwise_sorted (htrans : ∀ a b c, le a b → le b c → le a c)
    (htotal : ∀ a b, (le a b || le b a) = true) (xs : List α) :
    (sorted le xs).Pairwise fun a b => le a b = true := by
  rw [sorted_eq_mergeSort]
  exact List.pairwise_mergeSort htrans htotal xs

/-- A list that is in order stays as it is. -/
theorem sorted_of_pairwise {xs : List α} (h : xs.Pairwise fun a b => le a b = true) :
    sorted le xs = xs := by
  rw [sorted_eq_mergeSort]
  exact List.mergeSort_of_pairwise h

/-- **Stability.**  A part of the list that is in order already keeps its order. -/
theorem sublist_sorted (htrans : ∀ a b c, le a b → le b c → le a c)
    (htotal : ∀ a b, (le a b || le b a) = true) {part xs : List α}
    (hpart : part.Pairwise fun a b => le a b = true) (h : part.Sublist xs) :
    part.Sublist (sorted le xs) := by
  rw [sorted_eq_mergeSort]
  exact List.sublist_mergeSort htrans htotal hpart h

/-- A part whose elements all rank alike keeps its order. -/
theorem filter_sorted (htrans : ∀ a b c, le a b → le b c → le a c)
    (htotal : ∀ a b, (le a b || le b a) = true) {part : α → Bool}
    (halike : ∀ a b, part a → part b → le a b) (xs : List α) :
    (sorted le xs).filter part = xs.filter part := by
  have hpart : (xs.filter part).Pairwise fun a b => le a b = true :=
    List.pairwise_of_forall_mem_list fun a ha b hb =>
      halike a b (List.mem_filter.1 ha).2 (List.mem_filter.1 hb).2
  have hsub : (xs.filter part).Sublist ((sorted le xs).filter part) := by
    simpa using (sublist_sorted htrans htotal hpart List.filter_sublist).filter part
  exact (hsub.eq_of_length ((perm_sorted xs).filter part).length_eq.symm).symm

/-! ## 4. Comparing by key -/

/-- Whether `a` may stand in front of `b` in the order of a key made of two integers.  Where the
first integers are equal the second ones decide. -/
def byKey (key : α → Int × Int) (a b : α) : Bool :=
  decide ((key a).1 < (key b).1 ∨ (key a).1 = (key b).1 ∧ (key a).2 ≤ (key b).2)

variable {key : α → Int × Int}

theorem byKey_iff {a b : α} : byKey key a b = true ↔
    (key a).1 < (key b).1 ∨ (key a).1 = (key b).1 ∧ (key a).2 ≤ (key b).2 :=
  decide_eq_true_iff

theorem byKey_trans (a b c : α) (hab : byKey key a b) (hbc : byKey key b c) : byKey key a c := by
  rw [byKey_iff] at hab hbc ⊢
  omega

theorem byKey_total (a b : α) : (byKey key a b || byKey key b a) = true := by
  rw [Bool.or_eq_true, byKey_iff, byKey_iff]
  omega

end PeerRatings.Sorting
