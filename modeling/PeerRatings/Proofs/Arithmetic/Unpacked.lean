/-
# Unpacked doubles

In the logic an operation on doubles takes its operands apart into sign, mantissa and exponent,
computes there, rounds, and packs the result into 64 bits again.  This file says what rounding
does, as arithmetic on rationals:

* the two residual bits that a mantissa carries while it is shifted are enough to know the nearest
  integer (`Represents.roundedMantissa`), so **rounding is `rounded`** (`reads_roundWithAccuracy`);
* what is rounded comes out in **one shape** (`Canonical`), the one that packing keeps.

What is too large becomes an infinity when it is packed, never before.
-/
import PeerRatings.Proofs.Arithmetic.Rounding

namespace PeerRatings.Unpacked

open Float.Model Float.Model.UnpackedFloat Rounding

/-! ## 1. Mantissas with residual bits -/

/-- The number that a mantissa with its residual bits has been cut from: the round bit tells the
half in which it lies, the sticky bit whether it is off the edge. -/
def Represents (em : ExtendedMantissa) (x : ℚ) : Prop :=
  match em.roundBit, em.stickyBit with
  | false, false => x = em.mantissa
  | false, true => (em.mantissa : ℚ) < x ∧ x < em.mantissa + 1 / 2
  | true, false => x = em.mantissa + 1 / 2
  | true, true => (em.mantissa : ℚ) + 1 / 2 < x ∧ x < em.mantissa + 1

theorem Represents.bounds {em : ExtendedMantissa} {x : ℚ} (h : Represents em x) :
    (em.mantissa : ℚ) ≤ x ∧ x < em.mantissa + 1 := by
  obtain ⟨m, r, s⟩ := em
  cases r <;> cases s <;> simp only [Represents] at h <;> constructor <;> linarith

theorem Represents.roundedMantissa {em : ExtendedMantissa} {x : ℚ} (h : Represents em x) :
    (em.roundedMantissa : ℤ) = nearestInt x := by
  have hfloor : ⌊x⌋ = (em.mantissa : ℤ) := by
    refine Int.floor_eq_iff.mpr ?_
    exact_mod_cast h.bounds
  have hfract : Int.fract x = x - em.mantissa := by
    rw [Int.fract, hfloor]
    rfl
  rw [nearestInt, hfract, hfloor]
  obtain ⟨m, r, s⟩ := em
  cases r <;> cases s <;>
    simp only [Represents, ExtendedMantissa.roundedMantissa, ExtendedMantissa.accuracy,
      Accuracy.roundToNearestEven] at h ⊢ <;>
    split_ifs <;> first | omega | linarith

theorem Represents.shiftRightOne {em : ExtendedMantissa} {x : ℚ} (h : Represents em x) :
    Represents em.shiftRightOne (x / 2) := by
  obtain ⟨m, r, s⟩ := em
  have hm : (m : ℚ) = 2 * (m / 2 : ℕ) + (m % 2 : ℕ) := by exact_mod_cast (Nat.div_add_mod m 2).symm
  rcases Nat.mod_two_eq_zero_or_one m with hmod | hmod <;> rw [hmod] at hm <;> push_cast at hm <;>
    cases r <;> cases s <;>
    simp only [Represents, ExtendedMantissa.shiftRightOne, hmod, Bool.or_true, Bool.or_false,
      Nat.reduceBNe] at h ⊢ <;>
    first | linarith | (constructor <;> linarith)

/-- Shifting keeps track of the number. -/
theorem Represents.shiftRight {em : ExtendedMantissa} {x : ℚ} (h : Represents em x) (k : ℕ) :
    Represents (em >>> k) (x / 2 ^ k) := by
  change Represents (k.repeat ExtendedMantissa.shiftRightOne em) _
  induction k with
  | zero => simpa [Nat.repeat] using h
  | succ k ih =>
    rw [Nat.repeat, pow_succ, ← div_div]
    exact ih.shiftRightOne

/-! ## 2. What an unpacked double says -/

/-- A number with a sign in front. -/
def signed : Sign → ℚ → ℚ
  | .negative, q => -q
  | .positive, q => q

/-- What a double says: a number, a sign of something too large, or nothing.  The two zeros are
one number. -/
inductive Reading where
  | number (q : ℚ)
  | infinite (s : Sign)
  | absent

/-- What an unpacked double says. -/
def reads : UnpackedFloat → Reading
  | .zero _ => .number 0
  | .finite s m e _ => .number (signed s (m * 2 ^ e))
  | .infinity s => .infinite s
  | .notANumber => .absent

/-- The mantissa has 53 binary digits, or fewer with the finest step. -/
def Canonical : UnpackedFloat → Prop
  | .finite _ m e _ => m < 2 ^ 53 ∧ -1074 ≤ e ∧ (2 ^ 52 ≤ m ∨ e = -1074)
  | _ => True

theorem rounded_signed (s : Sign) (q : ℚ) : rounded (signed s q) = signed s (rounded q) := by
  cases s
  · exact rounded_neg q
  · rfl

/-! ## 3. Rounding -/

theorem targetExponent_binary64 (t : ℤ) :
    Format.binary64.targetExponent t = max (t - 53) (-1074) := rfl

theorem targetExponent_totalExponent (m : ℕ) (e : ℤ) :
    Format.binary64.targetExponent (totalExponent m e) =
      max ((m.log2 : ℤ) + e - 52) (-1074) := by
  rw [targetExponent_binary64, totalExponent]
  omega

/-- The exponent that a number is given is the step of its grid. -/
theorem targetExponent_eq {m : ℕ} {e : ℤ} {x : ℚ} (hx : 0 < x) (hm : (m : ℚ) ≤ x ∧ x < m + 1)
    (hbits : 52 ≤ m.log2 ∨ e ≤ -1074) :
    Format.binary64.targetExponent (totalExponent m e) = gridExponent (x * 2 ^ e) := by
  have hpos : 0 < x * 2 ^ e := mul_pos hx (two_zpow_pos e)
  rw [targetExponent_totalExponent, gridExponent, abs_of_pos hpos]
  by_cases hzero : m = 0
  · subst hzero
    have hlt : x * 2 ^ e < 2 ^ e := by
      have hx1 : x < 1 := by simpa using hm.2
      exact mul_lt_of_lt_one_left (two_zpow_pos e) hx1
    have hlog : Int.log 2 (x * 2 ^ e) < e :=
      (Int.lt_zpow_iff_log_lt (by norm_num) hpos).mp (by exact_mod_cast hlt)
    simp only [Nat.log2_zero] at hbits ⊢
    omega
  · have hlog : Int.log 2 (x * 2 ^ e) = m.log2 + e := by
      have hlow : (2 : ℚ) ^ ((m.log2 : ℤ) + e) ≤ x * 2 ^ e := by
        have hself : ((2 ^ m.log2 : ℕ) : ℚ) ≤ m := by exact_mod_cast Nat.log2_self_le hzero
        rw [zpow_add₀ (by norm_num : (2 : ℚ) ≠ 0), zpow_natCast]
        refine mul_le_mul_of_nonneg_right ?_ (two_zpow_pos e).le
        exact (by exact_mod_cast hself : (2 : ℚ) ^ m.log2 ≤ m).trans hm.1
      have hhigh : x * 2 ^ e < (2 : ℚ) ^ ((m.log2 : ℤ) + 1 + e) := by
        have hself : ((m + 1 : ℕ) : ℚ) ≤ (2 ^ (m.log2 + 1) : ℕ) := by
          exact_mod_cast Nat.lt_log2_self (n := m)
        push_cast at hself
        rw [zpow_add₀ (by norm_num : (2 : ℚ) ≠ 0),
          show (m.log2 : ℤ) + 1 = ((m.log2 + 1 : ℕ) : ℤ) by push_cast; rfl, zpow_natCast]
        exact mul_lt_mul_of_pos_right (hm.2.trans_le hself) (two_zpow_pos e)
      have hge := (Int.zpow_le_iff_le_log (b := 2) (by norm_num) hpos).mp (by exact_mod_cast hlow)
      have hlt := (Int.lt_zpow_iff_log_lt (b := 2) (by norm_num) hpos).mp (by exact_mod_cast hhigh)
      omega
    rw [hlog]

/-- A rounded mantissa that has grown by a digit is cut by that digit, which is a zero. -/
theorem shiftToTargetExponent_rounded {r : ℕ} {g : ℤ} (hr : r ≤ 2 ^ 53) (hg : -1074 ≤ g) :
    shiftToTargetExponent Format.binary64 r g .exact =
      if r < 2 ^ 53 then (⟨r, false, false⟩, g) else (⟨2 ^ 52, false, false⟩, g + 1) := by
  by_cases hlt : r < 2 ^ 53
  · have hlog : r.log2 ≤ 52 := by
      by_cases hzero : r = 0
      · simp [hzero]
      · have := (Nat.log2_lt hzero).mpr hlt
        omega
    have hshift : (Format.binary64.targetExponent (totalExponent r g) - g).toNat = 0 := by
      rw [targetExponent_totalExponent]
      omega
    rw [if_pos hlt]
    simp [shiftToTargetExponent, shiftToExponent, hshift, HShiftRight.hShiftRight, Nat.repeat,
      ExtendedMantissa.ofMantissaAndAccuracy]
  · obtain rfl : r = 2 ^ 53 := by omega
    have hnext : Format.binary64.targetExponent (totalExponent (2 ^ 53) g) = g + 1 := by
      rw [targetExponent_totalExponent, Nat.log2_two_pow]
      omega
    rw [if_neg hlt]
    unfold shiftToTargetExponent
    rw [hnext]
    simp [shiftToExponent, HShiftRight.hShiftRight, Nat.repeat,
      ExtendedMantissa.ofMantissaAndAccuracy, ExtendedMantissa.shiftRightOne]

/-- The mantissa on the grid has 53 digits at most, and as many if the step is not the finest. -/
theorem nearestInt_bounds_of_grid {q : ℚ} (hq : 0 < q) :
    nearestInt (q / 2 ^ gridExponent q) ≤ 2 ^ 53 ∧
      (2 ^ 52 ≤ nearestInt (q / 2 ^ gridExponent q) ∨ gridExponent q = -1074) := by
  have hgrid : gridExponent q = max (Int.log 2 q - 52) (-1074) := by
    rw [gridExponent, abs_of_pos hq]
  have hlow : (2 : ℚ) ^ Int.log 2 q ≤ q := by
    exact_mod_cast Int.zpow_log_le_self (b := 2) (by norm_num) hq
  have hhigh : q < (2 : ℚ) ^ (Int.log 2 q + 1) := by
    exact_mod_cast Int.lt_zpow_succ_log_self (b := 2) (by norm_num) q
  have hsplit : ∀ k : ℕ, (2 : ℚ) ^ ((k : ℤ) + gridExponent q) = 2 ^ k * 2 ^ gridExponent q :=
    fun k => by rw [zpow_add₀ (by norm_num : (2 : ℚ) ≠ 0), zpow_natCast]
  refine ⟨?_, ?_⟩
  · have hle : q / 2 ^ gridExponent q ≤ ((2 ^ 53 : ℤ) : ℚ) := by
      rw [div_le_iff₀ (two_zpow_pos _), Int.cast_pow, Int.cast_ofNat, ← hsplit]
      exact hhigh.le.trans (zpow_le_zpow_right₀ (by norm_num) (by push_cast; omega))
    have h := nearestInt_mono hle
    rwa [nearestInt_intCast] at h
  · by_cases hfinest : gridExponent q = -1074
    · exact .inr hfinest
    · have hge : ((2 ^ 52 : ℤ) : ℚ) ≤ q / 2 ^ gridExponent q := by
        rw [le_div_iff₀ (two_zpow_pos _), Int.cast_pow, Int.cast_ofNat, ← hsplit]
        exact (zpow_le_zpow_right₀ (by norm_num) (by push_cast; omega)).trans hlow
      have h := nearestInt_mono hge
      rw [nearestInt_intCast] at h
      exact .inl h

/-- What becomes of a mantissa once it is on its grid. -/
theorem reads_of_shift (s : Sign) {m : ℕ} {e g : ℤ} {a : Accuracy} {em : ExtendedMantissa}
    (hshift : shiftToTargetExponent Format.binary64 m e a = (em, g))
    (hle : em.roundedMantissa ≤ 2 ^ 53) (hg : -1074 ≤ g)
    (hnormal : 2 ^ 52 ≤ em.roundedMantissa ∨ g = -1074) :
    Canonical (roundWithAccuracy Format.binary64 s m e a) ∧
      reads (roundWithAccuracy Format.binary64 s m e a) =
        .number (signed s (em.roundedMantissa * 2 ^ g)) := by
  unfold roundWithAccuracy
  rw [hshift]
  dsimp only
  generalize em.roundedMantissa = r at *
  rw [shiftToTargetExponent_rounded hle hg]
  by_cases hlt : r < 2 ^ 53
  · rw [if_pos hlt]
    dsimp only
    by_cases hzero : r = 0
    · subst hzero
      rw [dif_pos rfl]
      refine ⟨trivial, congrArg Reading.number ?_⟩
      rw [Nat.cast_zero, zero_mul]
      cases s
      · exact neg_zero.symm
      · rfl
    · rw [dif_neg hzero]
      exact ⟨⟨hlt, hg, hnormal⟩, rfl⟩
  · obtain rfl : r = 2 ^ 53 := by omega
    have hdouble : ((2 ^ 53 : ℕ) : ℚ) * 2 ^ g = ((2 ^ 52 : ℕ) : ℚ) * 2 ^ (g + 1) := by
      rw [zpow_add₀ (by norm_num : (2 : ℚ) ≠ 0)]
      push_cast
      ring
    rw [if_neg hlt, hdouble]
    exact ⟨⟨by norm_num, by omega, .inl (le_refl _)⟩, rfl⟩

theorem mantissa_ofMantissaAndAccuracy (m : ℕ) (a : Accuracy) :
    (ExtendedMantissa.ofMantissaAndAccuracy m a).mantissa = m := by
  rcases a with _ | o
  · rfl
  · cases o <;> rfl

/-- **Rounding is `rounded`.** -/
theorem reads_roundWithAccuracy (s : Sign) {m : ℕ} {e : ℤ} {a : Accuracy} {x : ℚ} (hx : 0 < x)
    (hrep : Represents (.ofMantissaAndAccuracy m a) x) (hbits : 52 ≤ m.log2 ∨ e ≤ -1074) :
    Canonical (roundWithAccuracy Format.binary64 s m e a) ∧
      reads (roundWithAccuracy Format.binary64 s m e a) =
        .number (rounded (signed s (x * 2 ^ e))) := by
  have hpos : 0 < x * 2 ^ e := mul_pos hx (two_zpow_pos e)
  have hbounds := hrep.bounds
  rw [mantissa_ofMantissaAndAccuracy] at hbounds
  have htarget := targetExponent_eq hx hbounds hbits
  generalize hg : gridExponent (x * 2 ^ e) = g at htarget
  have hge : e ≤ g := by
    rw [← htarget, targetExponent_totalExponent]
    omega
  -- the first shift puts the mantissa on the grid of the number
  have hshift : shiftToTargetExponent Format.binary64 m e a =
      (ExtendedMantissa.ofMantissaAndAccuracy m a >>> (g - e).toNat, g) := by
    rw [shiftToTargetExponent, htarget, shiftToExponent]
    congr 1
    omega
  have hquot : x / 2 ^ (g - e).toNat = x * 2 ^ e / 2 ^ g := by
    have hsplit : (2 : ℚ) ^ g = 2 ^ (g - e).toNat * 2 ^ e := by
      rw [← zpow_natCast, ← zpow_add₀ (by norm_num : (2 : ℚ) ≠ 0)]
      congr 1
      omega
    rw [hsplit, mul_div_mul_right _ _ (two_zpow_pos e).ne']
  have hround := (hrep.shiftRight (g - e).toNat).roundedMantissa
  rw [hquot] at hround
  obtain ⟨hle, hnormal⟩ := nearestInt_bounds_of_grid hpos
  rw [hg, ← hround] at hle hnormal
  rw [rounded_signed, rounded, hg, ← hround, Int.cast_natCast]
  have hfinest : -1074 ≤ g := hg ▸ le_max_right _ _
  exact reads_of_shift s hshift (by exact_mod_cast hle) hfinest (by exact_mod_cast hnormal)

end PeerRatings.Unpacked
