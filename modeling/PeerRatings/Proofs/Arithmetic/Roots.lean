/-
# Square roots of doubles

A square root is computed on the mantissa, as the root of a natural number together with what is
left over.  What is left over tells the half of the unit in which the root lies and whether it is
off the edge, so the result is rounded once.  The root itself need not be rational, and no real
number is needed: `rootProxy` is a rational number in the same half of the same unit, and so it
rounds alike.

Of the root nothing more is used than where it lies between powers of two: **it is at most `2 ^ k`
if the number is at most the square, and at least `2 ^ k` if the number is at least that**
(`exists_reading_sqrt`), rounding included.
-/
import PeerRatings.Proofs.Arithmetic.Doubles

namespace PeerRatings

namespace Unpacked

open Float.Model Float.Model.UnpackedFloat Rounding

/-! ## 1. Roots of mantissas -/

/-- What the square root of a mantissa knows about the root. -/
def rootAccuracy (n : ℕ) : Accuracy :=
  if n - n.sqrt * n.sqrt = 0 then .exact
  else .inexact (if n - n.sqrt * n.sqrt ≤ n.sqrt then .lt else .gt)

/-- A number that rounds like the root of `n`: the root itself if it is whole, and else one in the
same half of the same unit. -/
def rootProxy (n : ℕ) : ℚ :=
  if n - n.sqrt * n.sqrt = 0 then n.sqrt
  else if n - n.sqrt * n.sqrt ≤ n.sqrt then n.sqrt + 1 / 4 else n.sqrt + 3 / 4

theorem represents_rootProxy (n : ℕ) :
    Represents (.ofMantissaAndAccuracy n.sqrt (rootAccuracy n)) (rootProxy n) := by
  unfold rootAccuracy rootProxy
  split_ifs
  · rfl
  · constructor <;> dsimp only [ExtendedMantissa.ofMantissaAndAccuracy] <;> linarith
  · constructor <;> dsimp only [ExtendedMantissa.ofMantissaAndAccuracy] <;> linarith

/-- Whole numbers compare with the root as their squares compare with `n`. -/
theorem rootProxy_le_of_le {n k : ℕ} (h : n ≤ k * k) : rootProxy n ≤ k := by
  rcases (Nat.sqrt_le_sqrt h).lt_or_eq with hlt | heq
  · rw [Nat.sqrt_eq] at hlt
    have hcast : (n.sqrt : ℚ) + 1 ≤ k := by exact_mod_cast hlt
    unfold rootProxy
    split_ifs <;> linarith
  · rw [Nat.sqrt_eq] at heq
    have hzero : n - n.sqrt * n.sqrt = 0 := by
      rw [heq]
      exact Nat.sub_eq_zero_of_le h
    rw [rootProxy, if_pos hzero, heq]

theorem le_rootProxy_of_le {n k : ℕ} (h : k * k ≤ n) : (k : ℚ) ≤ rootProxy n := by
  have hle : k ≤ n.sqrt := Nat.le_sqrt.mpr h
  have hcast : (k : ℚ) ≤ n.sqrt := by exact_mod_cast hle
  unfold rootProxy
  split_ifs <;> linarith

theorem one_le_rootProxy {n : ℕ} (hn : 0 < n) : 1 ≤ rootProxy n := by
  exact_mod_cast le_rootProxy_of_le (k := 1) hn

/-! ## 2. Roots of unpacked doubles -/

/-- A root is computed with enough digits. -/
theorem sqrtCore_bits {m : ℕ} (hm : 0 < m) (e : ℤ) : ∃ (k : ℕ) (t : ℤ), (k : ℤ) + 2 * t = e ∧
    sqrtCore Format.binary64 m e = ((m <<< k).sqrt, t, rootAccuracy (m <<< k)) ∧
    (52 ≤ (m <<< k).sqrt.log2 ∨ t ≤ -1074) := by
  have htarget : Format.binary64.targetExponent ((totalExponent m e + 1).ediv 2) =
      max (((m.log2 : ℤ) + e + 2) / 2 - 53) (-1074) := by
    rw [targetExponent_binary64, totalExponent]
    congr 3
    omega
  obtain ⟨t, ht⟩ : ∃ t, min (e / 2) (max (((m.log2 : ℤ) + e + 2) / 2 - 53) (-1074)) = t := ⟨_, rfl⟩
  refine ⟨(e - 2 * t).toNat, t, by omega, ?_, ?_⟩
  · unfold sqrtCore
    rw [htarget, show e.ediv 2 = e / 2 from rfl, ht]
    rfl
  · by_cases hfinest : t ≤ -1074
    · exact .inr hfinest
    · left
      have hlog : 104 ≤ (m <<< (e - 2 * t).toNat).log2 := by
        rw [log2_shiftLeft hm.ne']
        omega
      have hpos : m <<< (e - 2 * t).toNat ≠ 0 := by
        rw [Nat.shiftLeft_eq]
        positivity
      have hlarge := (Nat.le_log2 hpos).mp hlog
      have hroot : 2 ^ 52 ≤ (m <<< (e - 2 * t).toNat).sqrt := Nat.le_sqrt.mpr (by
        rwa [← pow_add])
      exact (Nat.le_log2 (by omega)).mpr hroot

/-- Powers of two compare with the root as their squares compare with the number. -/
theorem rootProxy_mul_bounds {n : ℕ} (hn : 0 < n) (t j : ℤ) :
    ((n : ℚ) * 2 ^ (2 * t) ≤ 2 ^ (2 * j) → rootProxy n * 2 ^ t ≤ 2 ^ j) ∧
      ((2 : ℚ) ^ (2 * j) ≤ n * 2 ^ (2 * t) → 2 ^ j ≤ rootProxy n * 2 ^ t) := by
  have hone : (1 : ℚ) ≤ n := by exact_mod_cast hn
  have hrootOne := one_le_rootProxy hn
  rcases le_or_gt t j with htj | hjt
  · -- the power of two is a whole number of units
    obtain ⟨d, rfl⟩ := Int.exists_add_of_le htj
    have hpower : (2 : ℚ) ^ (t + d) = (2 ^ d : ℕ) * 2 ^ t := by
      rw [add_comm, zpow_add₀ (by norm_num : (2 : ℚ) ≠ 0), zpow_natCast]
      norm_cast
    have hsquare : (2 : ℚ) ^ (2 * (t + d)) = (2 ^ d * 2 ^ d : ℕ) * 2 ^ (2 * t) := by
      rw [two_zpow_two_mul, two_zpow_two_mul, hpower]
      push_cast
      ring
    rw [hpower, hsquare]
    refine ⟨fun hle => ?_, fun hle => ?_⟩
    · have hcast := le_of_mul_le_mul_right hle (two_zpow_pos _)
      exact mul_le_mul_of_nonneg_right (rootProxy_le_of_le (by exact_mod_cast hcast))
        (two_zpow_pos t).le
    · have hcast := le_of_mul_le_mul_right hle (two_zpow_pos _)
      exact mul_le_mul_of_nonneg_right (le_rootProxy_of_le (by exact_mod_cast hcast))
        (two_zpow_pos t).le
  · -- the power of two is less than a unit, and the root is not
    have hlt : (2 : ℚ) ^ j < 2 ^ t := zpow_lt_zpow_right₀ (by norm_num) hjt
    have hsquare : (2 : ℚ) ^ (2 * j) < 2 ^ (2 * t) :=
      zpow_lt_zpow_right₀ (by norm_num) (by omega)
    refine ⟨fun hle => absurd hle (not_le.mpr (hsquare.trans_le ?_)), fun _ => hlt.le.trans ?_⟩
    · exact le_mul_of_one_le_left (two_zpow_pos _).le hone
    · exact le_mul_of_one_le_left (two_zpow_pos _).le hrootOne

/-- **A root lies between two powers of two if the number lies between their squares.** -/
theorem exists_roundsTo_sqrt {u : UnpackedFloat} {q : ℚ} (hq : reads u = .number q) (hpos : 0 ≤ q) :
    ∃ w, RoundsTo (UnpackedFloat.sqrt Format.binary64 u) w ∧ 0 ≤ w ∧
      ∀ k : ℤ, (q ≤ 2 ^ (2 * k) → w ≤ 2 ^ k) ∧ (2 ^ (2 * k) ≤ q → 2 ^ k ≤ w) := by
  cases u with
  | infinity s => cases hq
  | notANumber => cases hq
  | zero s =>
    obtain rfl := Reading.number.inj hq
    refine ⟨0, .of_reads trivial rfl, le_refl 0, fun k => ⟨fun _ => (two_zpow_pos k).le, ?_⟩⟩
    intro h
    exact absurd h (not_le.mpr (two_zpow_pos _))
  | finite s m e hm =>
    obtain rfl := Reading.number.inj hq
    have hvalue : (0 : ℚ) < m * 2 ^ e := mul_pos (by exact_mod_cast hm) (two_zpow_pos e)
    cases s with
    | negative => exact absurd hpos (not_le.mpr (neg_lt_zero.mpr hvalue))
    | positive =>
      obtain ⟨k, t, hkt, hcore, hbits⟩ := sqrtCore_bits hm e
      have hn : 0 < m <<< k := by
        rw [Nat.shiftLeft_eq]
        positivity
      have hroot : 0 < rootProxy (m <<< k) := (by linarith [one_le_rootProxy hn])
      have h := reads_roundWithAccuracy .positive hroot (represents_rootProxy (m <<< k)) hbits
      have hradicand : (m : ℚ) * 2 ^ e = (m <<< k : ℕ) * 2 ^ (2 * t) := by
        rw [Nat.shiftLeft_eq, ← hkt, zpow_add₀ (by norm_num : (2 : ℚ) ≠ 0), zpow_natCast]
        push_cast
        ring
      refine ⟨rootProxy (m <<< k) * 2 ^ t, ?_, (mul_pos hroot (two_zpow_pos t)).le, fun j => ?_⟩
      · unfold UnpackedFloat.sqrt
        dsimp only
        rw [hcore]
        exact h
      · rw [signed, hradicand]
        exact rootProxy_mul_bounds hn t j

end Unpacked

open Float.Model Rounding Unpacked

variable {x : Float} {q : ℚ}

/-! ## 3. Roots of doubles -/

/-- **The root of a number that is not negative is a number**, and it lies between two powers of two
if the number lies between their squares. -/
theorem exists_reading_sqrt (hx : reading x = .number q) (hq : 0 ≤ q) :
    ∃ w, reading x.sqrt = .number w ∧ ∀ k : ℤ, -1074 ≤ k →
      (q ≤ 2 ^ (2 * k) → w ≤ 2 ^ k) ∧ (2 ^ (2 * k) ≤ q → 2 ^ k ≤ w) := by
  obtain ⟨w, hround, hw, hbounds⟩ := exists_roundsTo_sqrt hx hq
  have hlimit : |rounded w| < limit := by
    have hsmall : q ≤ 2 ^ (2 * 512 : ℤ) :=
      (le_abs_self q).trans (abs_lt_limit_of_reading hx).le
    have hle : rounded w ≤ 2 ^ (512 : ℤ) :=
      (representable_two_zpow (by norm_num)).rounded_le ((hbounds 512).1 hsmall)
    rw [abs_of_nonneg (rounded_nonneg hw)]
    exact hle.trans_lt (two_zpow_lt_limit (by norm_num))
  have hroot : reading x.sqrt = nearest w := reads_pack hround
  refine ⟨rounded w, by rw [hroot, nearest_of_lt hlimit], fun k hk => ⟨?_, ?_⟩⟩ <;> intro hle
  · exact (representable_two_zpow hk).rounded_le ((hbounds k).1 hle)
  · exact (representable_two_zpow hk).le_rounded ((hbounds k).2 hle)

/-- The root of what is too large is too large. -/
theorem reading_sqrt_of_infinite (hx : reading x = .infinite .positive) :
    reading x.sqrt = .infinite .positive := by
  change reads (Float.Model.pack (.sqrt Format.binary64 x.toModel.unpack)).unpack = _
  rw [reading_infinite hx]
  exact congrArg reads (unpack_pack_infinity .positive)

end PeerRatings
