/-
# Sums and means of doubles

A sum of doubles is taken from left to right and rounded at every step.  How far it is off depends
on the numbers and on their order; but **a bound on all summands that is a power of two survives**,
in both directions.

* Whole multiples of a power of two have few digits, so as long as there are no more than `2 ^ 53`
  of them they need no rounding, and rounding is monotone.
* From there on a sum of numbers up to the bound does not grow any more: adding one more of them is
  half a step, and the tie goes to the even neighbor, which is the sum (`rounded_grow_le`).

Dividing by the rounded count takes the count out again, so the mean of numbers within the bound is
within the bound (`exists_reading_mean`), and the mean of at most `2 ^ 53` numbers above it is above
it (`atLeast_mean`).  Where no partial sum has too many digits the mean is exact
(`reading_mean_of_equal`).

All this is said of a sum that starts from either of the two zeros.
-/
import Mathlib.Data.List.Induction
import PeerRatings.Proofs.Arithmetic.Doubles

namespace PeerRatings

open Rounding Unpacked

variable {x y start : Float} {xs : List Float} {p q r : ℚ} {j : ℤ}

/-! ## 1. Lower bounds that allow for what is too large -/

/-- A double that is a number not below `q`, or too large. -/
def AtLeast (q : ℚ) (x : Float) : Prop :=
  (∃ r, reading x = .number r ∧ q ≤ r) ∨ reading x = .infinite .positive

theorem nearest_atLeast (hx : reading x = nearest r) (hq : Representable q) (hle : q ≤ r)
    (hr : 0 ≤ r) : AtLeast q x := by
  unfold nearest at hx
  split at hx
  · exact .inl ⟨_, hx, hq.le_rounded hle⟩
  · rw [signOf, if_neg (not_lt.mpr hr)] at hx
    exact .inr hx

/-- Adding a number that is not negative makes nothing smaller. -/
theorem AtLeast.add (hx : AtLeast q x) (hq : 0 ≤ q) (hqrep : Representable q)
    (hy : reading y = .number r) (hr : 0 ≤ r) : AtLeast q (x + y) ∧ AtLeast r (x + y) := by
  rcases hx with ⟨w, hw, hle⟩ | hx
  · have hsum := reading_add hw hy
    exact ⟨nearest_atLeast hsum hqrep (by linarith) (by linarith),
      nearest_atLeast hsum (representable_of_reading hy) (by linarith) (by linarith)⟩
  · have hsum := reading_add_of_infinite hx hy
    exact ⟨.inr hsum, .inr hsum⟩

/-- Lower bounds add up, if their sum is on the grid. -/
theorem AtLeast.add_atLeast (hx : AtLeast p x) (hy : AtLeast q y) (hpq : 0 ≤ p + q)
    (hrep : Representable (p + q)) : AtLeast (p + q) (x + y) := by
  rcases hx with ⟨v, hv, hpv⟩ | hx <;> rcases hy with ⟨w, hw, hqw⟩ | hy
  · exact nearest_atLeast (reading_add hv hw) hrep (by linarith) (by linarith)
  · exact .inr (reading_add_infinite hv hy)
  · exact .inr (reading_add_of_infinite hx hw)
  · exact .inr (reading_add_infinities hx hy)

theorem AtLeast.le (h : AtLeast q x) (hx : reading x = .number r) : q ≤ r := by
  rcases h with ⟨r', hr', hle⟩ | hinf
  · rwa [Reading.number.inj (hx.symm.trans hr')]
  · exact Reading.noConfusion (hinf.symm.trans hx)

/-- Above the limit there are no numbers. -/
theorem AtLeast.infinite (h : AtLeast limit x) : reading x = .infinite .positive := by
  rcases h with ⟨r, hr, hle⟩ | h
  · have hlt := (le_abs_self r).trans_lt (abs_lt_limit_of_reading hr)
    exact absurd hle (not_le.mpr hlt)
  · exact h

/-! ## 2. Counts -/

theorem reading_ofCount_of_le {n : ℕ} (h : n ≤ 2 ^ 53) :
    reading (Arithmetic.ofCount n) = .number n := by
  have hrep : Representable n := by
    have hsteps := representable_steps (j := 0) h (by norm_num)
    rwa [zpow_zero, mul_one] at hsteps
  have hlt : |(n : ℚ)| < limit := by
    have hcast : (n : ℚ) ≤ 2 ^ (53 : ℤ) := by exact_mod_cast h
    rw [Nat.abs_cast]
    exact hcast.trans_lt (two_zpow_lt_limit (by norm_num))
  rw [reading_ofCount, nearest_of_representable hrep hlt]

/-- A rounded count has not lost more than what is past `2 ^ 53`. -/
theorem atLeast_ofCount (n : ℕ) : AtLeast (min n (2 ^ 53) : ℕ) (Arithmetic.ofCount n) := by
  refine nearest_atLeast (reading_ofCount n) ?_ ?_ (Nat.cast_nonneg n)
  · have hsteps := representable_steps (j := 0) (min_le_right n (2 ^ 53)) (by norm_num)
    rwa [zpow_zero, mul_one] at hsteps
  · exact_mod_cast min_le_left n (2 ^ 53)

/-- A rounded count of numbers up to `2 ^ j` is not too large, unless `2 ^ j` is very large. -/
theorem count_mul_lt_limit (n : ℕ) (h : j < 971) : ((min n (2 ^ 53) : ℕ) : ℚ) * 2 ^ j < limit := by
  have hcount : ((min n (2 ^ 53) : ℕ) : ℚ) ≤ 2 ^ (53 : ℤ) := by exact_mod_cast min_le_right _ _
  calc ((min n (2 ^ 53) : ℕ) : ℚ) * 2 ^ j ≤ 2 ^ (53 : ℤ) * 2 ^ j :=
        mul_le_mul_of_nonneg_right hcount (two_zpow_pos j).le
    _ = 2 ^ (53 + j) := (zpow_add₀ (by norm_num : (2 : ℚ) ≠ 0) _ _).symm
    _ < limit := two_zpow_lt_limit (by omega)

/-! ## 3. Sums and means of bounded numbers -/

/-- **Half a step more is a tie**, and of the two neighbors the number itself is even. -/
theorem rounded_half_step (hj : -1074 ≤ j) :
    rounded ((2 ^ 53 : ℕ) * 2 ^ j + 2 ^ j) = (2 ^ 53 : ℕ) * 2 ^ j := by
  have hstep : (2 : ℚ) ^ (j + 1) = 2 * 2 ^ j := by
    rw [add_comm, zpow_add₀ (by norm_num : (2 : ℚ) ≠ 0), zpow_one]
  have hlow : (2 : ℚ) ^ (53 + j) = (2 ^ 53 : ℕ) * 2 ^ j := by
    rw [zpow_add₀ (by norm_num : (2 : ℚ) ≠ 0)]
    norm_num
  have hhigh : (2 : ℚ) ^ (54 + j) = (2 ^ 54 : ℕ) * 2 ^ j := by
    rw [zpow_add₀ (by norm_num : (2 : ℚ) ≠ 0)]
    norm_num
  have hj0 := two_zpow_pos j
  have hpos : (0 : ℚ) < (2 ^ 53 : ℕ) * 2 ^ j + 2 ^ j := by positivity
  have hlog : Int.log 2 ((2 ^ 53 : ℕ) * 2 ^ j + 2 ^ j : ℚ) = 53 + j := by
    have hge := (Int.zpow_le_iff_le_log (b := 2) (x := 53 + j) (by norm_num) hpos).mp (by
      rw [Nat.cast_ofNat, hlow]
      linarith)
    have hlt := (Int.lt_zpow_iff_log_lt (b := 2) (x := 54 + j) (by norm_num) hpos).mp (by
      rw [Nat.cast_ofNat, hhigh]
      push_cast
      linarith)
    omega
  have hgrid : gridExponent ((2 ^ 53 : ℕ) * 2 ^ j + 2 ^ j) = j + 1 := by
    rw [gridExponent, abs_of_pos hpos, hlog]
    omega
  have hquot : ((2 ^ 53 : ℕ) * 2 ^ j + 2 ^ j : ℚ) / 2 ^ (j + 1) = (2 ^ 52 : ℤ) + 1 / 2 := by
    rw [hstep, div_eq_iff (by positivity)]
    push_cast
    ring
  have htie : nearestInt ((2 ^ 52 : ℤ) + 1 / 2 : ℚ) = 2 ^ 52 := by
    have hfloor : ⌊((2 ^ 52 : ℤ) + 1 / 2 : ℚ)⌋ = 2 ^ 52 := by
      rw [Int.floor_intCast_add]
      norm_num
    have hfract : Int.fract ((2 ^ 52 : ℤ) + 1 / 2 : ℚ) = 1 / 2 := by
      rw [Int.fract_intCast_add]
      norm_num
    rw [nearestInt, hfract, hfloor]
    norm_num
  rw [rounded, hgrid, hquot, htie, hstep]
  push_cast
  ring

/-- Multiples of a power of two are counted up to `2 ^ 53`, and no further. -/
theorem rounded_grow_le {n : ℕ} (hj : -1074 ≤ j) (hq : q ≤ (min n (2 ^ 53) : ℕ) * 2 ^ j + 2 ^ j) :
    rounded q ≤ (min (n + 1) (2 ^ 53) : ℕ) * 2 ^ j := by
  rcases Nat.lt_or_ge n (2 ^ 53) with hn | hn
  · rw [min_eq_left hn.le] at hq
    rw [min_eq_left hn]
    refine (representable_steps hn hj).rounded_le (hq.trans_eq ?_)
    push_cast
    ring
  · rw [min_eq_right hn] at hq
    rw [min_eq_right (by omega), ← rounded_half_step hj]
    exact rounded_mono hq

/-- **A sum of numbers up to `2 ^ j` is a number**, at most `2 ^ j` for each of them. -/
theorem exists_reading_sum (hstart : reading start = .number 0) (hj : -1074 ≤ j)
    (hxs : ∀ x ∈ xs, ∃ q, reading x = .number q ∧ |q| ≤ 2 ^ j)
    (hlimit : (min xs.length (2 ^ 53) : ℕ) * 2 ^ j < limit) :
    ∃ s, reading (xs.foldl (· + ·) start) = .number s ∧
      |s| ≤ (min xs.length (2 ^ 53) : ℕ) * 2 ^ j := by
  induction xs using List.reverseRecOn with
  | nil => exact ⟨0, hstart, by simp⟩
  | append_singleton xs x ih =>
    rw [List.length_append, List.length_singleton] at hlimit ⊢
    have hgrow : ((min xs.length (2 ^ 53) : ℕ) : ℚ) ≤ (min (xs.length + 1) (2 ^ 53) : ℕ) := by
      exact_mod_cast min_le_min_right _ (Nat.le_succ _)
    obtain ⟨q, hq, hqle⟩ := hxs x (by simp)
    obtain ⟨s, hs, hsle⟩ := ih (fun y hy => hxs y (List.mem_append_left _ hy))
      ((mul_le_mul_of_nonneg_right hgrow (two_zpow_pos j).le).trans_lt hlimit)
    have hle : |rounded (s + q)| ≤ (min (xs.length + 1) (2 ^ 53) : ℕ) * 2 ^ j := by
      rw [abs_rounded]
      exact rounded_grow_le hj ((abs_add_le s q).trans (add_le_add hsle hqle))
    refine ⟨rounded (s + q), ?_, hle⟩
    rw [List.foldl_concat, reading_add hs hq, nearest_of_lt (hle.trans_lt hlimit)]

/-- **Dividing by a count** makes no number too large, keeps the sign and takes the count out of a
bound. -/
theorem exists_reading_div_count {n : ℕ} (hn : 0 < n) (hx : reading x = .number q) :
    ∃ m, reading (x / Arithmetic.ofCount n) = .number m ∧ (0 ≤ q → 0 ≤ m) ∧
      ∀ j : ℤ, -1074 ≤ j → |q| ≤ (min n (2 ^ 53) : ℕ) * 2 ^ j → |m| ≤ 2 ^ j := by
  rcases atLeast_ofCount n with ⟨c, hc, hle⟩ | hinf
  · have hmin : 1 ≤ min n (2 ^ 53) := le_min hn (by norm_num)
    have hone : 1 ≤ c := (by exact_mod_cast hmin : (1 : ℚ) ≤ (min n (2 ^ 53) : ℕ)).trans hle
    have hcpos : 0 < c := one_pos.trans_le hone
    have habs : |rounded (q / c)| = rounded (|q| / c) := by
      rw [abs_rounded, abs_div, abs_of_pos hcpos]
    have hquot : |rounded (q / c)| ≤ |q| := by
      rw [habs]
      exact (representable_of_reading hx).abs.rounded_le (div_le_self (abs_nonneg q) hone)
    refine ⟨rounded (q / c), ?_, fun hq => rounded_nonneg (div_nonneg hq hcpos.le), ?_⟩
    · rw [reading_div hx hc hcpos.ne', nearest_of_lt (hquot.trans_lt (abs_lt_limit_of_reading hx))]
    · intro j hj hbound
      rw [habs]
      refine (representable_two_zpow hj).rounded_le ((div_le_iff₀ hcpos).mpr (hbound.trans ?_))
      rw [mul_comm]
      exact mul_le_mul_of_nonneg_left hle (two_zpow_pos j).le
  · refine ⟨0, reading_div_of_infinite hx hinf, fun _ => le_refl 0, fun j _ _ => ?_⟩
    rw [abs_zero]
    exact (two_zpow_pos j).le

/-- **The mean of numbers up to `2 ^ j` is a number up to `2 ^ j`.** -/
theorem exists_reading_mean (hstart : reading start = .number 0) (hne : xs ≠ []) (hj : -1074 ≤ j)
    (hxs : ∀ x ∈ xs, ∃ q, reading x = .number q ∧ |q| ≤ 2 ^ j)
    (hlimit : (min xs.length (2 ^ 53) : ℕ) * 2 ^ j < limit) :
    ∃ m, reading (xs.foldl (· + ·) start / Arithmetic.ofCount xs.length) = .number m ∧
      |m| ≤ 2 ^ j := by
  obtain ⟨s, hs, hsle⟩ := exists_reading_sum hstart hj hxs hlimit
  obtain ⟨m, hm, -, hbound⟩ := exists_reading_div_count (List.length_pos_iff.mpr hne) hs
  exact ⟨m, hm, hbound j hj hsle⟩

/-- What is not negative adds up to something that is not negative. -/
theorem atLeast_zero_sum (hstart : reading start = .number 0) (hxs : ∀ x ∈ xs, AtLeast 0 x) :
    AtLeast 0 (xs.foldl (· + ·) start) := by
  induction xs using List.reverseRecOn with
  | nil => exact .inl ⟨0, hstart, le_refl 0⟩
  | append_singleton xs x ih =>
    have hrest := ih fun y hy => hxs y (List.mem_append_left _ hy)
    have hsum := hrest.add_atLeast (hxs x (by simp)) (by norm_num)
      (by rw [add_zero]; exact representable_zero)
    rw [add_zero] at hsum
    rwa [List.foldl_concat]

/-- **At most `2 ^ 53` numbers from `2 ^ j` on add up to as many times `2 ^ j`**, or to what is too
large. -/
theorem atLeast_sum (hstart : reading start = .number 0) (hj : -1074 ≤ j)
    (hxs : ∀ x ∈ xs, AtLeast (2 ^ j) x) (hlen : xs.length ≤ 2 ^ 53) :
    AtLeast (xs.length * 2 ^ j) (xs.foldl (· + ·) start) := by
  induction xs using List.reverseRecOn with
  | nil => exact .inl ⟨0, hstart, by simp⟩
  | append_singleton xs x ih =>
    rw [List.length_append, List.length_singleton] at hlen ⊢
    have hrest := ih (fun y hy => hxs y (List.mem_append_left _ hy)) (by omega)
    have hvalue : ((xs.length + 1 : ℕ) : ℚ) * 2 ^ j = xs.length * 2 ^ j + 2 ^ j := by
      push_cast
      ring
    have hrep := representable_steps hlen hj
    have hj0 := two_zpow_pos j
    rw [hvalue] at hrep ⊢
    rw [List.foldl_concat]
    exact hrest.add_atLeast (hxs x (by simp)) (by positivity) hrep

/-- **Their mean is at least `2 ^ j`**, or too large. -/
theorem atLeast_mean (hstart : reading start = .number 0) (hne : xs ≠ []) (hj : -1074 ≤ j)
    (hxs : ∀ x ∈ xs, AtLeast (2 ^ j) x) (hlen : xs.length ≤ 2 ^ 53) :
    AtLeast (2 ^ j) (xs.foldl (· + ·) start / Arithmetic.ofCount xs.length) := by
  have hcount := reading_ofCount_of_le hlen
  have hpos : (0 : ℚ) < xs.length := by exact_mod_cast List.length_pos_iff.mpr hne
  rcases atLeast_sum hstart hj hxs hlen with ⟨s, hs, hle⟩ | hinf
  · have hquot : 2 ^ j ≤ s / xs.length := (le_div_iff₀ hpos).mpr (by rwa [mul_comm])
    exact nearest_atLeast (reading_div hs hcount hpos.ne') (representable_two_zpow hj) hquot
      ((two_zpow_pos j).le.trans hquot)
  · exact .inr (reading_infinite_div hinf hcount hpos)

/-! ## 4. Equal numbers -/

/-- Equal numbers add up exactly as long as no partial sum has too many digits. -/
theorem reading_sum_of_equal (hstart : reading start = .number 0)
    (hxs : ∀ x ∈ xs, reading x = .number q)
    (hrep : ∀ i ≤ xs.length, Representable (i * q)) (hlimit : xs.length * |q| < limit) :
    reading (xs.foldl (· + ·) start) = .number (xs.length * q) := by
  induction xs using List.reverseRecOn with
  | nil => simpa using hstart
  | append_singleton xs x ih =>
    rw [List.length_append, List.length_singleton] at hrep hlimit ⊢
    have hvalue : ((xs.length + 1 : ℕ) : ℚ) * q = xs.length * q + q := by
      push_cast
      ring
    have hshorter : (xs.length : ℚ) * |q| < limit := by
      refine lt_of_le_of_lt (mul_le_mul_of_nonneg_right ?_ (abs_nonneg q)) hlimit
      exact_mod_cast Nat.le_succ _
    have hrest := ih (fun y hy => hxs y (List.mem_append_left _ hy)) (fun i hi => hrep i (by omega))
      hshorter
    have hsum := hrep (xs.length + 1) (le_refl _)
    have hsumlt : |((xs.length + 1 : ℕ) : ℚ) * q| < limit := by rwa [abs_mul, Nat.abs_cast]
    rw [hvalue] at hsum hsumlt ⊢
    rw [List.foldl_concat, reading_add hrest (hxs x (by simp)),
      nearest_of_representable hsum hsumlt]

/-- **Their mean is then the number itself.** -/
theorem reading_mean_of_equal (hstart : reading start = .number 0) (hne : xs ≠ [])
    (hxs : ∀ x ∈ xs, reading x = .number q) (hlen : xs.length ≤ 2 ^ 53)
    (hrep : ∀ i ≤ xs.length, Representable (i * q)) (hlimit : xs.length * |q| < limit) :
    reading (xs.foldl (· + ·) start / Arithmetic.ofCount xs.length) = .number q := by
  have hpos : (0 : ℚ) < xs.length := by exact_mod_cast List.length_pos_iff.mpr hne
  obtain ⟨x, hx⟩ := List.exists_mem_of_ne_nil xs hne
  rw [reading_div (reading_sum_of_equal hstart hxs hrep hlimit) (reading_ofCount_of_le hlen)
    hpos.ne', mul_div_cancel_left₀ q hpos.ne',
    nearest_of_representable (representable_of_reading (hxs x hx))
      (abs_lt_limit_of_reading (hxs x hx))]

end PeerRatings
