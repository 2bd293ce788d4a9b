/-
# Rounding to double precision

An operation on doubles is the exact operation on rationals, rounded.  Doubles of about the size
of `q` lie on a grid whose step is a power of two: 53 binary digits fit between the leading digit
of `q` and the step, and no step is finer than `2 ^ (-1074)`.  `rounded q` is the point of that
grid which is nearest to `q`, and of two that are equally near the even one.

Nothing is said here about the largest double.  A number that rounds to `2 ^ 1024` or more is too
large, and what becomes of it is a matter of the doubles themselves.

Three facts carry the rest: rounding is monotone (`rounded_mono`), a number that is on the grid
stays (`rounded_of_representable`), and rounding commutes with doubling (`rounded_two_pow_mul`) as
long as nothing was finer than the finest step.  Together they say that a bound on magnitudes that
is a power of two survives rounded products and rounded sums (`abs_rounded_mul_le`,
`abs_rounded_add_le`).
-/
import Mathlib.Data.Int.Log
import Mathlib.Data.Rat.Floor
import Mathlib.Tactic.FieldSimp
import Mathlib.Tactic.Linarith

namespace PeerRatings.Rounding

/-! ## 1. The nearest integer -/

/-- The integer nearest to `q`; halfway between two, the even one. -/
def nearestInt (q : ℚ) : ℤ :=
  if Int.fract q < 1 / 2 then ⌊q⌋
  else if 1 / 2 < Int.fract q then ⌊q⌋ + 1
  else ⌊q⌋ + ⌊q⌋ % 2

theorem nearestInt_intCast (n : ℤ) : nearestInt n = n := by
  simp [nearestInt]

theorem nearestInt_bounds (q : ℚ) : ⌊q⌋ ≤ nearestInt q ∧ nearestInt q ≤ ⌊q⌋ + 1 := by
  unfold nearestInt
  split_ifs <;> omega

theorem nearestInt_mono {x y : ℚ} (h : x ≤ y) : nearestInt x ≤ nearestInt y := by
  rcases (Int.floor_mono h).lt_or_eq with hlt | heq
  · have hx := (nearestInt_bounds x).2
    have hy := (nearestInt_bounds y).1
    omega
  · have hfract : Int.fract x ≤ Int.fract y := by
      rw [Int.fract, Int.fract, heq]
      linarith
    unfold nearestInt
    rw [heq]
    split_ifs <;> first | omega | linarith

theorem nearestInt_neg (q : ℚ) : nearestInt (-q) = -nearestInt q := by
  by_cases hq : Int.fract q = 0
  · have hint : q = (⌊q⌋ : ℚ) := by
      have := Int.floor_add_fract q
      linarith
    rw [hint, ← Int.cast_neg, nearestInt_intCast, nearestInt_intCast]
  · have hfract : Int.fract (-q) = 1 - Int.fract q := Int.fract_neg hq
    have hfloor : ⌊-q⌋ = -⌊q⌋ - 1 := by
      have hcast : (⌊-q⌋ : ℚ) = -(⌊q⌋ : ℚ) - 1 := by
        have h := Int.floor_add_fract q
        have hneg := Int.floor_add_fract (-q)
        linarith
      exact_mod_cast hcast
    unfold nearestInt
    rw [hfract, hfloor]
    split_ifs <;> first | omega | linarith

/-! ## 2. The grid around a number -/

/-- The step of the grid around `q`, as a power of two. -/
def gridExponent (q : ℚ) : ℤ := max (Int.log 2 |q| - 52) (-1074)

/-- The double nearest to `q`, if doubles had no largest. -/
def rounded (q : ℚ) : ℚ := nearestInt (q / 2 ^ gridExponent q) * 2 ^ gridExponent q

theorem gridExponent_neg (q : ℚ) : gridExponent (-q) = gridExponent q := by
  rw [gridExponent, abs_neg, gridExponent]

theorem rounded_neg (q : ℚ) : rounded (-q) = -rounded q := by
  rw [rounded, gridExponent_neg, neg_div, nearestInt_neg, rounded]
  push_cast
  ring

@[simp] theorem rounded_zero : rounded 0 = 0 := by
  have h := rounded_neg 0
  rw [neg_zero] at h
  linarith

theorem two_zpow_pos (e : ℤ) : (0 : ℚ) < 2 ^ e := zpow_pos (by norm_num) e

theorem two_zpow_two_mul (k : ℤ) : (2 : ℚ) ^ (2 * k) = 2 ^ k * 2 ^ k := by
  rw [two_mul, zpow_add₀ (by norm_num : (2 : ℚ) ≠ 0)]

/-- A whole number of steps of the grid is a bound for what is rounded if it is one before. -/
theorem rounded_le_of_le {q : ℚ} {n : ℤ} (h : q ≤ n * 2 ^ gridExponent q) :
    rounded q ≤ n * 2 ^ gridExponent q := by
  have hdiv : q / 2 ^ gridExponent q ≤ n := (div_le_iff₀ (two_zpow_pos _)).mpr h
  have hnear := nearestInt_mono hdiv
  rw [nearestInt_intCast] at hnear
  have hcast : (nearestInt (q / 2 ^ gridExponent q) : ℚ) ≤ n := by exact_mod_cast hnear
  exact mul_le_mul_of_nonneg_right hcast (two_zpow_pos _).le

theorem le_rounded_of_le {q : ℚ} {n : ℤ} (h : n * 2 ^ gridExponent q ≤ q) :
    n * 2 ^ gridExponent q ≤ rounded q := by
  have hdiv : (n : ℚ) ≤ q / 2 ^ gridExponent q := (le_div_iff₀ (two_zpow_pos _)).mpr h
  have hnear := nearestInt_mono hdiv
  rw [nearestInt_intCast] at hnear
  have hcast : (n : ℚ) ≤ nearestInt (q / 2 ^ gridExponent q) := by exact_mod_cast hnear
  exact mul_le_mul_of_nonneg_right hcast (two_zpow_pos _).le

/-- A power of two that is no finer than the grid is a whole number of steps. -/
theorem exists_steps {g e : ℤ} (h : g ≤ e) (m : ℤ) : ∃ n : ℤ, (m : ℚ) * 2 ^ e = n * 2 ^ g := by
  refine ⟨m * 2 ^ (e - g).toNat, ?_⟩
  have hsplit : e = ((e - g).toNat : ℤ) + g := by omega
  conv_lhs => rw [hsplit, zpow_add₀ (by norm_num : (2 : ℚ) ≠ 0), zpow_natCast]
  push_cast
  ring

/-! ## 3. Order -/

theorem rounded_nonneg {q : ℚ} (h : 0 ≤ q) : 0 ≤ rounded q := by
  have hle := le_rounded_of_le (q := q) (n := 0) (by simpa using h)
  simpa using hle

theorem rounded_mono_of_pos {x y : ℚ} (hx : 0 < x) (h : x ≤ y) : rounded x ≤ rounded y := by
  have hy : 0 < y := lt_of_lt_of_le hx h
  by_cases hgrid : gridExponent x = gridExponent y
  · have hdiv : x / 2 ^ gridExponent y ≤ y / 2 ^ gridExponent y :=
      div_le_div_of_nonneg_right h (two_zpow_pos _).le
    have hcast : (nearestInt (x / 2 ^ gridExponent y) : ℚ) ≤ nearestInt (y / 2 ^ gridExponent y) := by
      exact_mod_cast nearestInt_mono hdiv
    rw [rounded, rounded, hgrid]
    exact mul_le_mul_of_nonneg_right hcast (two_zpow_pos _).le
  · -- the leading digit of `y` is a point of both grids that separates the two
    have hlog : Int.log 2 x < Int.log 2 y := by
      refine lt_of_le_of_ne (Int.log_mono_right hx h) ?_
      intro heq
      exact hgrid (by rw [gridExponent, gridExponent, abs_of_pos hx, abs_of_pos hy, heq])
    have hgy : gridExponent y = Int.log 2 y - 52 := by
      have hx' : gridExponent x = max (Int.log 2 x - 52) (-1074) := by
        rw [gridExponent, abs_of_pos hx]
      have hy' : gridExponent y = max (Int.log 2 y - 52) (-1074) := by
        rw [gridExponent, abs_of_pos hy]
      omega
    have hgx : gridExponent x ≤ Int.log 2 y := by
      rw [gridExponent, abs_of_pos hx]
      rw [gridExponent, abs_of_pos hy] at hgy
      omega
    have hxlt : x ≤ 2 ^ Int.log 2 y := by
      have hlt := Int.lt_zpow_succ_log_self (b := 2) (by norm_num) x
      have hpow : (2 : ℚ) ^ (Int.log 2 x + 1) ≤ 2 ^ Int.log 2 y :=
        zpow_le_zpow_right₀ (by norm_num) (by omega)
      exact_mod_cast (hlt.trans_le (by exact_mod_cast hpow)).le
    have hyge : (2 : ℚ) ^ Int.log 2 y ≤ y := by
      exact_mod_cast Int.zpow_log_le_self (b := 2) (by norm_num) hy
    obtain ⟨n, hn⟩ := exists_steps hgx 1
    obtain ⟨k, hk⟩ := exists_steps (g := gridExponent y) (e := Int.log 2 y) (by omega) 1
    rw [Int.cast_one, one_mul] at hn hk
    calc rounded x ≤ n * 2 ^ gridExponent x := rounded_le_of_le (hn ▸ hxlt)
      _ = k * 2 ^ gridExponent y := by rw [← hn, hk]
      _ ≤ rounded y := le_rounded_of_le (hk ▸ hyge)

/-- **Rounding is monotone.** -/
theorem rounded_mono {x y : ℚ} (h : x ≤ y) : rounded x ≤ rounded y := by
  rcases lt_trichotomy x 0 with hx | rfl | hx
  · rcases le_or_gt 0 y with hy | hy
    · have hneg := rounded_nonneg (q := -x) (by linarith)
      have hpos := rounded_nonneg hy
      rw [rounded_neg] at hneg
      linarith
    · have hflip := rounded_mono_of_pos (x := -y) (y := -x) (by linarith) (by linarith)
      rw [rounded_neg, rounded_neg] at hflip
      linarith
  · rw [rounded_zero]
    exact rounded_nonneg h
  · exact rounded_mono_of_pos hx h

theorem abs_rounded (q : ℚ) : |rounded q| = rounded |q| := by
  rcases le_or_gt 0 q with h | h
  · rw [abs_of_nonneg h, abs_of_nonneg (rounded_nonneg h)]
  · have hnonneg := rounded_nonneg (q := -q) (by linarith)
    rw [rounded_neg] at hnonneg
    rw [abs_of_neg h, rounded_neg, abs_of_nonpos (by linarith)]

/-! ## 4. Numbers on the grid -/

/-- A number with at most 53 binary digits, none finer than the finest step. -/
def Representable (q : ℚ) : Prop := ∃ m e : ℤ, |m| < 2 ^ 53 ∧ -1074 ≤ e ∧ q = m * 2 ^ e

theorem Representable.gridExponent_le {q : ℚ} {m e : ℤ} (hm : |m| < 2 ^ 53) (he : -1074 ≤ e)
    (hq : q = m * 2 ^ e) (hne : q ≠ 0) : gridExponent q ≤ e := by
  have hpos : 0 < |q| := abs_pos.mpr hne
  have hlt : |q| < 2 ^ (53 + e) := by
    have hcast : (|m| : ℚ) < 2 ^ 53 := by exact_mod_cast hm
    rw [hq, abs_mul, abs_of_pos (two_zpow_pos e), zpow_add₀ (by norm_num : (2 : ℚ) ≠ 0)]
    exact mul_lt_mul_of_pos_right (by exact_mod_cast hcast) (two_zpow_pos e)
  have hlog : Int.log 2 |q| < 53 + e := (Int.lt_zpow_iff_log_lt (by norm_num) hpos).mp
    (by exact_mod_cast hlt)
  rw [gridExponent]
  omega

/-- **A number on the grid stays.** -/
theorem rounded_of_representable {q : ℚ} (h : Representable q) : rounded q = q := by
  obtain ⟨m, e, hm, he, hq⟩ := h
  by_cases hne : q = 0
  · rw [hne, rounded_zero]
  · obtain ⟨n, hn⟩ := exists_steps (Representable.gridExponent_le hm he hq hne) m
    have hsteps : q = n * 2 ^ gridExponent q := hq.trans hn
    exact le_antisymm ((rounded_le_of_le hsteps.le).trans hsteps.ge)
      (hsteps.le.trans (le_rounded_of_le hsteps.ge))

/-- Numbers on the grid are bounds for what is rounded if they are bounds before. -/
theorem Representable.le_rounded {q r : ℚ} (hq : Representable q) (h : q ≤ r) : q ≤ rounded r := by
  have hmono := rounded_mono h
  rwa [rounded_of_representable hq] at hmono

theorem Representable.rounded_le {q r : ℚ} (hq : Representable q) (h : r ≤ q) : rounded r ≤ q := by
  have hmono := rounded_mono h
  rwa [rounded_of_representable hq] at hmono

theorem Representable.neg {q : ℚ} (h : Representable q) : Representable (-q) := by
  obtain ⟨m, e, hm, he, hq⟩ := h
  exact ⟨-m, e, by rwa [abs_neg], he, by rw [hq]; push_cast; ring⟩

theorem Representable.abs {q : ℚ} (h : Representable q) : Representable |q| := by
  rcases abs_choice q with hq | hq <;> rw [hq]
  · exact h
  · exact h.neg

/-- Doubling only moves the step. -/
theorem Representable.two_pow_mul {q : ℚ} (h : Representable q) (k : ℕ) :
    Representable (2 ^ k * q) := by
  obtain ⟨m, e, hm, he, hq⟩ := h
  refine ⟨m, k + e, hm, by omega, ?_⟩
  rw [hq, zpow_add₀ (by norm_num : (2 : ℚ) ≠ 0), zpow_natCast]
  ring

theorem representable_two_pow (k : ℕ) : Representable (2 ^ k) :=
  ⟨1, k, by norm_num, by omega, by rw [Int.cast_one, one_mul, zpow_natCast]⟩

theorem representable_two_zpow {k : ℤ} (h : -1074 ≤ k) : Representable (2 ^ k) :=
  ⟨1, k, by norm_num, h, by rw [Int.cast_one, one_mul]⟩

/-- Few enough of a step are on the grid. -/
theorem representable_steps {n : ℕ} {j : ℤ} (hn : n ≤ 2 ^ 53) (hj : -1074 ≤ j) :
    Representable (n * 2 ^ j) := by
  rcases hn.lt_or_eq with hlt | rfl
  · exact ⟨n, j, by rw [Nat.abs_cast]; exact_mod_cast hlt, hj, by rw [Int.cast_natCast]⟩
  · refine ⟨1, 53 + j, by norm_num, by omega, ?_⟩
    rw [zpow_add₀ (by norm_num : (2 : ℚ) ≠ 0)]
    norm_num

/-! ## 5. Doubling -/

/-- A whole number of the finest steps. -/
def Units (q : ℚ) : Prop := ∃ n : ℤ, q = n * 2 ^ (-1074 : ℤ)

theorem Representable.units {q : ℚ} (h : Representable q) : Units q := by
  obtain ⟨m, e, -, he, hq⟩ := h
  obtain ⟨n, hn⟩ := exists_steps he m
  exact ⟨n, hq.trans hn⟩

theorem Units.add {p q : ℚ} (hp : Units p) (hq : Units q) : Units (p + q) := by
  obtain ⟨m, hm⟩ := hp
  obtain ⟨n, hn⟩ := hq
  exact ⟨m + n, by rw [hm, hn, Int.cast_add, add_mul]⟩

theorem log_two_pow_mul {q : ℚ} (h : 0 < q) (k : ℕ) :
    Int.log 2 (2 ^ k * q) = k + Int.log 2 q := by
  have hpos : 0 < 2 ^ k * q := by positivity
  have hlow : (2 : ℚ) ^ Int.log 2 q ≤ q := by
    exact_mod_cast Int.zpow_log_le_self (b := 2) (by norm_num) h
  have hhigh : q < (2 : ℚ) ^ (Int.log 2 q + 1) := by
    exact_mod_cast Int.lt_zpow_succ_log_self (b := 2) (by norm_num) q
  have hsplit : ∀ e : ℤ, (2 : ℚ) ^ ((k : ℤ) + e) = 2 ^ k * 2 ^ e := fun e => by
    rw [zpow_add₀ (by norm_num : (2 : ℚ) ≠ 0), zpow_natCast]
  have hge : (k : ℤ) + Int.log 2 q ≤ Int.log 2 (2 ^ k * q) := by
    refine (Int.zpow_le_iff_le_log (by norm_num) hpos).mp ?_
    have hmul : (2 : ℚ) ^ k * 2 ^ Int.log 2 q ≤ 2 ^ k * q :=
      mul_le_mul_of_nonneg_left hlow (by positivity)
    rw [← hsplit] at hmul
    exact_mod_cast hmul
  have hlt : Int.log 2 (2 ^ k * q) < k + (Int.log 2 q + 1) := by
    refine (Int.lt_zpow_iff_log_lt (by norm_num) hpos).mp ?_
    have hmul : (2 : ℚ) ^ k * q < 2 ^ k * 2 ^ (Int.log 2 q + 1) :=
      mul_lt_mul_of_pos_left hhigh (by positivity)
    rw [← hsplit] at hmul
    exact_mod_cast hmul
  omega

/-- **Rounding commutes with doubling**, if nothing was finer than the finest step. -/
theorem rounded_two_pow_mul {q : ℚ} (h : Units q) (k : ℕ) :
    rounded (2 ^ k * q) = 2 ^ k * rounded q := by
  obtain ⟨n, hn⟩ := h
  by_cases hne : q = 0
  · simp [hne]
  have hpos : 0 < |q| := abs_pos.mpr hne
  have habs : |2 ^ k * q| = 2 ^ k * |q| := by rw [abs_mul, abs_of_pos (by positivity)]
  by_cases hgrid : -1074 ≤ Int.log 2 |q| - 52
  · -- the grid moves along with the number
    have hstep : gridExponent (2 ^ k * q) = k + gridExponent q := by
      rw [gridExponent, gridExponent, habs, log_two_pow_mul hpos]
      omega
    have hsplit : (2 : ℚ) ^ ((k : ℤ) + gridExponent q) = 2 ^ k * 2 ^ gridExponent q := by
      rw [zpow_add₀ (by norm_num : (2 : ℚ) ≠ 0), zpow_natCast]
    have hquot : 2 ^ k * q / (2 ^ k * 2 ^ gridExponent q) = q / 2 ^ gridExponent q :=
      mul_div_mul_left _ _ (by positivity)
    rw [rounded, hstep, hsplit, hquot, rounded]
    ring
  · -- so few of the finest steps need no rounding, neither before nor after
    have hsmall : |n| < 2 ^ 53 := by
      have hlt : |q| < 2 ^ (-1022 : ℤ) := by
        have hlog := (Int.lt_zpow_iff_log_lt (b := 2) (by norm_num) hpos).mpr
          (show Int.log 2 |q| < -1022 by omega)
        exact_mod_cast hlog
      rw [hn, abs_mul, abs_of_pos (two_zpow_pos _),
        show (-1022 : ℤ) = 52 + -1074 by norm_num, zpow_add₀ (by norm_num : (2 : ℚ) ≠ 0)] at hlt
      have hcast : |(n : ℚ)| < 2 ^ (52 : ℤ) := lt_of_mul_lt_mul_right hlt (two_zpow_pos _).le
      have hint : |n| < 2 ^ 52 := by exact_mod_cast hcast
      exact hint.trans (by norm_num)
    have hq : Representable q := ⟨n, -1074, hsmall, le_refl _, hn⟩
    rw [rounded_of_representable hq, rounded_of_representable (hq.two_pow_mul k)]

/-! ## 6. Magnitudes up to a power of two -/

/-- A rounded product keeps a bound that is a power of two. -/
theorem abs_rounded_mul_le {s r : ℚ} {k : ℕ} (hs : Representable s) (hr : |r| ≤ 2 ^ k) :
    |rounded (s * r)| ≤ 2 ^ k * |s| := by
  rw [abs_rounded, abs_mul, mul_comm]
  exact (hs.abs.two_pow_mul k).rounded_le (mul_le_mul_of_nonneg_right hr (abs_nonneg s))

/-- **A rounded sum keeps it as well**, against the rounded sum of the bounds. -/
theorem abs_rounded_add_le {a b v w : ℚ} {k : ℕ} (hv : Units v) (hw : Units w)
    (ha : |a| ≤ 2 ^ k * v) (hb : |b| ≤ 2 ^ k * w) :
    |rounded (a + b)| ≤ 2 ^ k * rounded (v + w) := by
  have hsum : |a + b| ≤ 2 ^ k * (v + w) := by
    have htriangle := abs_add_le a b
    linarith
  calc |rounded (a + b)| = rounded |a + b| := abs_rounded _
    _ ≤ rounded (2 ^ k * (v + w)) := rounded_mono hsum
    _ = 2 ^ k * rounded (v + w) := rounded_two_pow_mul (hv.add hw) k

end PeerRatings.Rounding
