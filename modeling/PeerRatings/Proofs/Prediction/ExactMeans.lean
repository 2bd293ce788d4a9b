/-
# Means in exact arithmetic

Over exact ratings two summands of a running sum can be exchanged, and absent ones are no
exception: whichever of them comes first, the sum is absent from there on.  Two things follow for
the weighted mean of an item, and in double precision neither of them holds:

* it does not depend on the order of the entries (`meanVote_perm`);
* if everybody gives the same rating it is that rating, whatever the similarities are, as long as
  they are positive (`meanVote_of_unanimous`).

The second is a fact about the running sums: after any number of such entries the weighted sum is
the rating times the weight (`exists_sums_of_unanimous`).
-/
import Mathlib.Algebra.Order.Ring.Rat
import Mathlib.Data.List.Induction
import PeerRatings.Arithmetic.Exact
import PeerRatings.Proofs.Prediction.Scores

namespace PeerRatings

/-! ## 1. Numbers and running sums -/

namespace Exact

theorem eq_value_of_present {a : Exact} (h : Arithmetic.isAbsent a = false) : ∃ q, a = value q := by
  cases a with
  | absent => exact absurd h (by decide)
  | value q => exact ⟨q, rfl⟩

theorem eq_value_of_finite {a : Exact} (h : Arithmetic.isFinite a = true) : ∃ q, a = value q := by
  have hpresent : (!Arithmetic.isAbsent a) = true := h
  exact eq_value_of_present (by simpa using hpresent)

theorem zero_numLt_value_iff {q : Rat} :
    Arithmetic.numLt Arithmetic.zero (value q) = true ↔ 0 < q :=
  decide_eq_true_iff

theorem value_numEq_zero_iff {q : Rat} :
    Arithmetic.numEq (value q) Arithmetic.zero = true ↔ q = 0 :=
  decide_eq_true_iff

theorem eq_value_of_pos {a : Exact} (h : Arithmetic.numLt Arithmetic.zero a = true) :
    ∃ q, a = value q ∧ 0 < q := by
  cases a with
  | absent => exact absurd h (by decide)
  | value q => exact ⟨q, rfl, zero_numLt_value_iff.mp h⟩

/-- Two summands can be exchanged. -/
theorem add_swap (sum a b : Exact) : sum + a + b = sum + b + a := by
  cases sum with
  | absent => rfl
  | value p =>
    cases a with
    | absent => cases b <;> rfl
    | value q =>
      cases b with
      | absent => rfl
      | value r => rw [value_add, value_add, value_add, value_add, add_right_comm]

end Exact

/-! ## 2. The order of the entries -/

variable {rating : Neighbor Exact → Exact} {ns ms : List (Neighbor Exact)}

/-- A sum over entries that passes some of them over does not depend on their order. -/
theorem foldl_skip_perm {skip : Neighbor Exact → Prop} [DecidablePred skip]
    (summand : Neighbor Exact → Exact) (h : ns.Perm ms) (start : Exact) :
    ns.foldl (fun sum n => if skip n then sum else sum + summand n) start =
      ms.foldl (fun sum n => if skip n then sum else sum + summand n) start := by
  refine h.foldl_eq' ?_ start
  intro n _ m _ sum
  by_cases hn : skip n <;> by_cases hm : skip m <;> simp [hn, hm, Exact.add_swap]

/-- **The mean of the votes does not depend on their order.** -/
theorem meanVote_perm (h : ns.Perm ms) : meanVote rating ns = meanVote rating ms := by
  have hsum : voteSum rating ns = voteSum rating ms := foldl_skip_perm _ h _
  have hweight : voteWeight rating ns = voteWeight rating ms := foldl_skip_perm _ h _
  rw [meanVote, meanVote, hsum, hweight]

/-! ## 3. Unanimous votes -/

/-- The sums of entries that all give the rating `x`, with positive similarities. -/
theorem exists_sums_of_unanimous {x : Rat}
    (hsim : ∀ n ∈ ns, Arithmetic.numLt Arithmetic.zero n.similarity = true)
    (hrating : ∀ n ∈ ns, rating n = .value x) :
    ∃ w, voteWeight rating ns = .value w ∧ voteSum rating ns = .value (w * x) ∧ 0 ≤ w ∧
      (ns ≠ [] → 0 < w) := by
  induction ns using List.reverseRecOn with
  | nil =>
    refine ⟨0, rfl, ?_, le_refl 0, fun h => absurd rfl h⟩
    rw [zero_mul]
    rfl
  | append_singleton ns n ih =>
    obtain ⟨w, hweight, hsum, hw, -⟩ :=
      ih (fun m hm => hsim m (List.mem_append_left _ hm))
        (fun m hm => hrating m (List.mem_append_left _ hm))
    have hn : n ∈ ns ++ [n] := List.mem_append_right _ List.mem_cons_self
    obtain ⟨s, hs, hpos⟩ := Exact.eq_value_of_pos (hsim n hn)
    have habs : Arithmetic.abs (Exact.value s) = .value s :=
      congrArg Exact.value (Rat.abs_of_nonneg hpos.le)
    have hpresent : ¬ Arithmetic.isAbsent (Exact.value x) = true := nofun
    refine ⟨w + s, ?_, ?_, (add_pos_of_nonneg_of_pos hw hpos).le,
      fun _ => add_pos_of_nonneg_of_pos hw hpos⟩
    · rw [voteWeight, List.foldl_concat, ← voteWeight, hweight, hrating n hn, if_neg hpresent, hs,
        habs, Exact.value_add]
    · rw [voteSum, List.foldl_concat, ← voteSum, hsum, hrating n hn, if_neg hpresent, hs,
        Exact.value_mul, Exact.value_add, add_mul]

/-- **Where all agree, the mean is what they agree on**, which may be no rating. -/
theorem meanVote_of_unanimous {x : Exact} (hne : ns ≠ [])
    (hsim : ∀ n ∈ ns, Arithmetic.numLt Arithmetic.zero n.similarity = true)
    (hrating : ∀ n ∈ ns, rating n = x) : meanVote rating ns = x := by
  cases x with
  | absent =>
    have hweight : voteWeight rating ns = Arithmetic.zero :=
      voteWeight_of_absent fun n hn => congrArg Arithmetic.isAbsent (hrating n hn)
    refine meanVote_of_weight ?_
    rw [hweight]
    decide
  | value q =>
    obtain ⟨w, hweight, hsum, -, hpos⟩ := exists_sums_of_unanimous hsim hrating
    rw [meanVote, hweight, if_pos (Exact.zero_numLt_value_iff.mpr (hpos hne)), hsum,
      Exact.value_div _ (hpos hne).ne', mul_div_cancel_left₀ q (hpos hne).ne']

end PeerRatings
