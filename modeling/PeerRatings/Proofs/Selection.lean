/-
# The first few of many

Neighbor lists and rankings are made in the same way: what qualifies is sorted stably and the
first `n` are kept.  What comes out is described here without the sort (`FirstIn`): it is in
order, all of it qualifies, and whatever qualifies and is left out comes after all of it, which
can only happen when `n` are there already.

The order of a stable sort is finer than the comparison it sorts by.  Where the list comes in an
order of its own, elements that rank alike keep that order (`Sorting.stable_sorted`).

The description is complete: in a strict order there is one list of the first `n`
(`FirstIn.unique`).  And it can be put together: whoever belongs to the first `n` of two kinds
belongs to the first `n` of one of them, so cutting the two lists loses nobody
(`FirstIn.of_merge`).
-/
import Mathlib.Data.Finset.Card
import Mathlib.Data.List.Sort
import PeerRatings.Sorting

namespace PeerRatings

variable {β : Type}

/-! ## 1. Stable sorting refines the order of its input -/

/-- Elements that rank alike stay in the order in which they came. -/
theorem Sorting.stable_sorted {le : β → β → Bool} (htrans : ∀ a b c, le a b → le b c → le a c)
    (htotal : ∀ a b, (le a b || le b a) = true) {came : β → β → Prop} {xs : List β}
    (h : xs.Pairwise came) : (sorted le xs).Pairwise fun a b => le b a = true → came a b := by
  rw [sorted_eq_mergeSort]
  induction xs with
  | nil => simp
  | cons x rest ih =>
    obtain ⟨hx, hrest⟩ := List.pairwise_cons.mp h
    -- sorting puts `x` behind what ranks strictly before it, and in front of everything else
    obtain ⟨front, back, hwith, hwithout, hfront⟩ := List.mergeSort_cons htrans htotal x rest
    have hrank := ih hrest
    rw [hwithout, List.pairwise_append] at hrank
    obtain ⟨hinfront, hinback, hacross⟩ := hrank
    rw [hwith, List.pairwise_append]
    refine ⟨hinfront, List.pairwise_cons.mpr ⟨fun b hb _ => ?_, hinback⟩, fun a ha b hb hle => ?_⟩
    · have hmem : b ∈ rest.mergeSort le := by
        rw [hwithout]
        exact List.mem_append_right _ hb
      exact hx b (List.mem_mergeSort.mp hmem)
    · rcases List.mem_cons.mp hb with rfl | hb
      · have hstrict := hfront a ha
        simp [hle] at hstrict
      · exact hacross a ha b hb hle

/-! ## 2. The first `n` in an order -/

/-- The list holds the first `n`, in the order `before`, of what satisfies `p`; all of it, if
there are fewer. -/
structure FirstIn (before : β → β → Prop) (p : β → Prop) (n : Nat) (l : List β) : Prop where
  /-- The list is in order. -/
  ordered : l.Pairwise before
  /-- What is listed qualifies. -/
  qualified : ∀ b ∈ l, p b
  /-- At most `n` are listed. -/
  length_le : l.length ≤ n
  /-- What qualifies and is left out comes after the `n` that are listed. -/
  left_out : ∀ b, p b → b ∉ l → l.length = n ∧ ∀ a ∈ l, before a b

namespace FirstIn

variable {before : β → β → Prop} {p : β → Prop} {n : Nat} {l : List β}

/-- Cutting an ordered list of everything that qualifies leaves the first. -/
theorem of_take {all : List β} (hordered : all.Pairwise before) (hall : ∀ b, b ∈ all ↔ p b) :
    FirstIn before p n (all.take n) where
  ordered := hordered.sublist (List.take_sublist n all)
  qualified b hb := (hall b).mp (List.mem_of_mem_take hb)
  length_le := List.length_take_le n all
  left_out b hb hout := by
    have hsplit := List.take_append_drop n all
    have hrest : b ∈ all.drop n := by
      have hmem := (hall b).mpr hb
      rw [← hsplit, List.mem_append] at hmem
      exact hmem.resolve_left hout
    have hlong : n < all.length := by
      have hpos := List.length_pos_of_mem hrest
      rw [List.length_drop] at hpos
      omega
    refine ⟨List.length_take_of_le (Nat.le_of_lt hlong), fun a ha => ?_⟩
    rw [← hsplit] at hordered
    exact (List.pairwise_append.mp hordered).2.2 a ha b hrest

/-- **As many are listed as there are, up to `n`.** -/
theorem length_eq [DecidableEq β] (h : FirstIn before p n l) (hirrefl : ∀ b, ¬ before b b)
    {all : Finset β} (hall : ∀ b, b ∈ all ↔ p b) : l.length = min n all.card := by
  have hnodup : l.Nodup := by
    refine h.ordered.imp ?_
    rintro a _ hab rfl
    exact hirrefl a hab
  have hsub : l.toFinset ⊆ all := by
    intro b hb
    exact (hall b).mpr (h.qualified b (List.mem_toFinset.mp hb))
  have hcard : l.toFinset.card = l.length := List.toFinset_card_of_nodup hnodup
  have hle := Finset.card_le_card hsub
  have hshort := h.length_le
  by_cases hin : all ⊆ l.toFinset
  · have hge := Finset.card_le_card hin
    omega
  · obtain ⟨b, hb, hout⟩ := Finset.not_subset.mp hin
    have hfull := (h.left_out b ((hall b).mp hb) fun hmem => hout (List.mem_toFinset.mpr hmem)).1
    omega

end FirstIn

/-! ## 3. Selections side by side -/

/-- A list without repeats has a member that a list of at most its length has not, if the other
list has one that it has not. -/
theorem exists_mem_not_mem {l l' : List β} (hl : l.Nodup) (hlen : l'.length ≤ l.length) {b : β}
    (hb : b ∈ l') (hout : b ∉ l) : ∃ a ∈ l, a ∉ l' := by
  by_contra hnone
  push Not at hnone
  have hsub : b :: l ⊆ l' := by
    intro a ha
    rcases List.mem_cons.mp ha with rfl | ha
    · exact hb
    · exact hnone a ha
  have hle := (List.subperm_of_subset (List.nodup_cons.mpr ⟨hout, hl⟩) hsub).length_le
  rw [List.length_cons] at hle
  omega

namespace FirstIn

variable {before : β → β → Prop} [Std.Asymm before] {p q : β → Prop} {n : Nat}
  {l l' all : List β}

theorem nodup (h : FirstIn before p n l) : l.Nodup :=
  List.Pairwise.nodup h.ordered

/-- Whoever is in one of two selections is in the other.  Otherwise somebody is left out on either
side, and each of the two would come before the other. -/
theorem mem_of_mem (h : FirstIn before p n l) (h' : FirstIn before p n l') {b : β} (hb : b ∈ l) :
    b ∈ l' := by
  by_contra hout
  obtain ⟨hfull, hbefore⟩ := h'.left_out b (h.qualified b hb) hout
  obtain ⟨a, ha, haout⟩ :=
    exists_mem_not_mem h'.nodup (by rw [hfull]; exact h.length_le) hb hout
  have hab : before a b := hbefore a ha
  have hba : before b a := (h.left_out a (h'.qualified a ha) haout).2 b hb
  exact Std.Asymm.asymm a b hab hba

/-- **The first `n` are determined** by the order and by who qualifies. -/
theorem unique (h : FirstIn before p n l) (h' : FirstIn before p n l') : l = l' := by
  refine List.Pairwise.eq_of_mem_iff h.ordered h'.ordered ?_
  intro b
  exact ⟨fun hb => h.mem_of_mem h' hb, fun hb => h'.mem_of_mem h hb⟩

variable [IsTrans β before]

/-- Whoever a selection leaves out comes after the first `n` of any list around it: what stands
there in the place of a member of the selection comes before that member. -/
theorem before_of_left_out (h : FirstIn before p n l) (hall : all.Pairwise before)
    (hsub : l ⊆ all) {b : β} (hb : p b) (hout : b ∉ l) :
    (all.take n).length = n ∧ ∀ a ∈ all.take n, before a b := by
  obtain ⟨hfull, hbefore⟩ := h.left_out b hb hout
  have hlong : n ≤ all.length := by
    rw [← hfull]
    exact (List.subperm_of_subset h.nodup hsub).length_le
  have hlength : (all.take n).length = n := List.length_take_of_le hlong
  refine ⟨hlength, ?_⟩
  intro a ha
  by_cases hmem : a ∈ l
  · exact hbefore a hmem
  · obtain ⟨c, hc, hcut⟩ :=
      exists_mem_not_mem h.nodup (by rw [hlength, hfull]) ha hmem
    have hac : before a c := ((of_take hall fun _ => Iff.rfl).left_out c (hsub hc) hcut).2 a ha
    exact IsTrans.trans a c b hac (hbefore c hc)

/-- **The first of two kinds are among the first of each.**  Cutting a list of the members of two
selections leaves the selection from both kinds. -/
theorem of_merge (h : FirstIn before p n l) (h' : FirstIn before q n l')
    (hall : all.Pairwise before) (hmem : ∀ b, b ∈ all ↔ b ∈ l ∨ b ∈ l') :
    FirstIn before (fun b => p b ∨ q b) n (all.take n) where
  ordered := hall.sublist (List.take_sublist n all)
  qualified b hb := by
    rcases (hmem b).mp (List.mem_of_mem_take hb) with hl | hl'
    · exact .inl (h.qualified b hl)
    · exact .inr (h'.qualified b hl')
  length_le := List.length_take_le n all
  left_out b hb hout := by
    by_cases hin : b ∈ all
    · exact (of_take hall fun _ => Iff.rfl).left_out b hin hout
    · rw [hmem, not_or] at hin
      rcases hb with hp | hq
      · exact h.before_of_left_out hall (fun a ha => (hmem a).mpr (.inl ha)) hp hin.1
      · exact h'.before_of_left_out hall (fun a ha => (hmem a).mpr (.inr ha)) hq hin.2

end FirstIn

end PeerRatings
