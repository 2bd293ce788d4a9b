/-
# Operations on unpacked doubles

Sum, difference, product and quotient of unpacked doubles, as arithmetic on rationals.  Each of
them computes an exact mantissa and exponent, or, for the quotient, a mantissa with what it has
been cut from, and rounds (`reads_roundWithAccuracy`).  What has to be checked is that there are
digits enough to round: a product of mantissas has them, a sum is shifted until it has them, and a
quotient is computed with as many.

So every operation **rounds the exact result once** (`roundsTo_add`, `roundsTo_sub`,
`roundsTo_mul`, `roundsTo_div`), and a count is rounded when it is converted (`roundsTo_ofNat`).
Operands that are no numbers are not treated here.
-/
import PeerRatings.Proofs.Arithmetic.Unpacked

namespace PeerRatings.Unpacked

open Float.Model Float.Model.UnpackedFloat Rounding

/-! ## 1. Numbers in shape -/

/-- The double says what the number is rounded to, in the shape that can be packed. -/
def RoundsTo (u : UnpackedFloat) (q : ℚ) : Prop := Canonical u ∧ reads u = .number (rounded q)

theorem representable_of_reads {u : UnpackedFloat} {q : ℚ} (hu : Canonical u)
    (h : reads u = .number q) : Representable q := by
  cases u with
  | zero s =>
    obtain rfl := Reading.number.inj h
    exact ⟨0, 0, by norm_num, by norm_num, by norm_num⟩
  | finite s m e hm =>
    obtain rfl := Reading.number.inj h
    obtain ⟨hlt, he, -⟩ := hu
    have hpos : Representable (m * 2 ^ e) :=
      ⟨m, e, by rw [Nat.abs_cast]; exact_mod_cast hlt, he, by rw [Int.cast_natCast]⟩
    cases s
    · exact hpos.neg
    · exact hpos
  | infinity s => cases h
  | notANumber => cases h

theorem RoundsTo.of_reads {u : UnpackedFloat} {q : ℚ} (hu : Canonical u)
    (h : reads u = .number q) : RoundsTo u q :=
  ⟨hu, by rw [rounded_of_representable (representable_of_reads hu h), h]⟩

/-! ## 2. Rounding a mantissa with an exponent -/

theorem represents_exact (m : ℕ) : Represents (.ofMantissaAndAccuracy m .exact) m := rfl

/-- Decreasing the exponent adds zeros to the mantissa. -/
theorem decreaseExponent_value {m : ℕ} {e t : ℤ} :
    ((decreaseExponent m e t).1 : ℚ) * 2 ^ (decreaseExponent m e t).2 = m * 2 ^ e := by
  simp only [decreaseExponent, Nat.shiftLeft_eq]
  push_cast
  rw [mul_assoc, ← zpow_natCast, ← zpow_add₀ (by norm_num : (2 : ℚ) ≠ 0)]
  congr 2
  omega

theorem log2_shiftLeft {m : ℕ} (hm : m ≠ 0) (k : ℕ) : (m <<< k).log2 = m.log2 + k := by
  rw [Nat.shiftLeft_eq]
  refine (Nat.log2_eq_iff (by positivity)).mpr ⟨?_, ?_⟩
  · rw [pow_add]
    exact Nat.mul_le_mul_right _ (Nat.log2_self_le hm)
  · have hlt := Nat.mul_lt_mul_of_pos_right (Nat.lt_log2_self (n := m)) (Nat.two_pow_pos k)
    rwa [← pow_add, show m.log2 + 1 + k = m.log2 + k + 1 by omega] at hlt

theorem roundsTo_round (s : Sign) {m : ℕ} (hm : 0 < m) (e : ℤ) :
    RoundsTo (UnpackedFloat.round Format.binary64 s m e) (signed s (m * 2 ^ e)) := by
  have hlog := log2_shiftLeft hm.ne' (e - max ((m.log2 : ℤ) + e - 52) (-1074)).toNat
  unfold UnpackedFloat.round
  rw [targetExponent_totalExponent]
  dsimp only
  rw [← decreaseExponent_value (t := max ((m.log2 : ℤ) + e - 52) (-1074))]
  refine reads_roundWithAccuracy s ?_ (represents_exact _) ?_
  · simp only [decreaseExponent, Nat.shiftLeft_eq]
    positivity
  · simp only [decreaseExponent, hlog]
    omega

theorem roundsTo_normalize (m e : ℤ) (zs : Sign) :
    RoundsTo (UnpackedFloat.normalize Format.binary64 m e zs) (m * 2 ^ e) := by
  unfold UnpackedFloat.normalize
  rcases lt_trichotomy m 0 with hm | rfl | hm
  · rw [Int.compare_eq_lt.mpr hm]
    have h := roundsTo_round .negative (m := (-m).toNat) (by omega) e
    have hcast : (((-m).toNat : ℕ) : ℚ) = -m := by
      exact_mod_cast (Int.toNat_of_nonneg (by omega : 0 ≤ -m))
    rwa [signed, hcast, neg_mul, neg_neg] at h
  · refine ⟨trivial, ?_⟩
    rw [Int.cast_zero, zero_mul, rounded_zero]
    rfl
  · rw [Int.compare_eq_gt.mpr hm]
    have h := roundsTo_round .positive (m := m.toNat) (by omega) e
    have hcast : ((m.toNat : ℕ) : ℚ) = m := by
      exact_mod_cast (Int.toNat_of_nonneg (by omega : 0 ≤ m))
    rwa [signed, hcast] at h

theorem signed_mul (s : Sign) (p q : ℚ) : signed s p * q = signed s (p * q) := by
  cases s
  · exact neg_mul p q
  · rfl

theorem apply_cast (s : Sign) (m : ℕ) : ((s.apply m : ℤ) : ℚ) = signed s m := by
  cases s
  · simp [Sign.apply, signed]
  · simp [Sign.apply, signed]

theorem decreaseExponent_of_le {m : ℕ} {e t : ℤ} (h : t ≤ e) :
    ((decreaseExponent m e t).1 : ℚ) * 2 ^ t = m * 2 ^ e := by
  have ht : (decreaseExponent m e t).2 = t := by
    simp only [decreaseExponent]
    omega
  have hvalue := decreaseExponent_value (m := m) (e := e) (t := t)
  rwa [ht] at hvalue

/-! ## 3. Sum, difference and product -/

/-- **A sum is the rounded sum.** -/
theorem roundsTo_add {u v : UnpackedFloat} {p q : ℚ} (hu : Canonical u) (hv : Canonical v)
    (hp : reads u = .number p) (hq : reads v = .number q) :
    RoundsTo (UnpackedFloat.add Format.binary64 u v) (p + q) := by
  cases u with
  | infinity s => cases hp
  | notANumber => cases hp
  | zero s =>
    obtain rfl := Reading.number.inj hp
    rw [zero_add]
    cases v with
    | infinity s' => cases hq
    | notANumber => cases hq
    | zero s' =>
      -- zeros of the same sign keep it, and the reading has none
      cases s <;> cases s' <;> exact .of_reads trivial hq
    | finite s' m' e' hm' => exact .of_reads hv hq
  | finite s m e hm =>
    cases v with
    | infinity s' => cases hq
    | notANumber => cases hq
    | zero s' =>
      obtain rfl := Reading.number.inj hq
      rw [add_zero]
      exact .of_reads hu hp
    | finite s' m' e' hm' =>
      obtain rfl := Reading.number.inj hp
      obtain rfl := Reading.number.inj hq
      -- both operands are brought to the smaller exponent, and the mantissas are added there
      have h := roundsTo_normalize (s.apply (decreaseExponent m e (min e e')).1 +
        s'.apply (decreaseExponent m' e' (min e e')).1) (min e e') .positive
      rwa [Int.cast_add, apply_cast, apply_cast, add_mul, signed_mul, signed_mul,
        decreaseExponent_of_le (min_le_left e e'), decreaseExponent_of_le (min_le_right e e')] at h

theorem signed_neg (s : Sign) (q : ℚ) : signed (-s) q = -signed s q := by
  cases s
  · exact (neg_neg q).symm
  · rfl

theorem reads_neg {u : UnpackedFloat} {q : ℚ} (h : reads u = .number q) :
    reads u.neg = .number (-q) := by
  cases u with
  | infinity s => cases h
  | notANumber => cases h
  | zero s =>
    obtain rfl := Reading.number.inj h
    rw [neg_zero]
    rfl
  | finite s m e hm =>
    obtain rfl := Reading.number.inj h
    exact congrArg Reading.number (signed_neg s _)

theorem canonical_neg {u : UnpackedFloat} (h : Canonical u) : Canonical u.neg := by
  cases u <;> exact h

theorem apply_neg (s : Sign) (m : ℤ) : (-s).apply m = -s.apply m := by
  cases s
  · exact (neg_neg m).symm
  · rfl

/-- A difference is a sum with the opposite. -/
theorem sub_eq_add_opposite (u v : UnpackedFloat) :
    UnpackedFloat.sub Format.binary64 u v = UnpackedFloat.add Format.binary64 u v.neg := by
  cases u with
  | finite s m e hm =>
    cases v with
    | finite s' m' e' hm' =>
      change normalize _ (s.apply _ - s'.apply _) _ _ = normalize _ (s.apply _ + (-s').apply _) _ _
      rw [apply_neg, ← Int.sub_eq_add_neg]
    | _ => rfl
  | _ => cases v <;> rfl

/-- **A difference is the rounded difference.** -/
theorem roundsTo_sub {u v : UnpackedFloat} {p q : ℚ} (hu : Canonical u) (hv : Canonical v)
    (hp : reads u = .number p) (hq : reads v = .number q) :
    RoundsTo (UnpackedFloat.sub Format.binary64 u v) (p - q) := by
  rw [sub_eq_add_opposite, sub_eq_add_neg]
  exact roundsTo_add hu (canonical_neg hv) hp (reads_neg hq)

theorem signed_mul_signed (s s' : Sign) (p q : ℚ) :
    signed s p * signed s' q = signed (s * s') (p * q) := by
  cases s <;> cases s'
  · exact neg_mul_neg p q
  · exact neg_mul p q
  · exact mul_neg p q
  · rfl

theorem signed_div_signed (s s' : Sign) (p q : ℚ) :
    signed s p / signed s' q = signed (s / s') (p / q) := by
  cases s <;> cases s'
  · exact neg_div_neg_eq p q
  · exact neg_div q p
  · exact div_neg p
  · rfl

/-- **A product is the rounded product.** -/
theorem roundsTo_mul {u v : UnpackedFloat} {p q : ℚ} (hu : Canonical u) (hv : Canonical v)
    (hp : reads u = .number p) (hq : reads v = .number q) :
    RoundsTo (UnpackedFloat.mul Format.binary64 u v) (p * q) := by
  cases u with
  | infinity s => cases hp
  | notANumber => cases hp
  | zero s =>
    obtain rfl := Reading.number.inj hp
    rw [zero_mul]
    cases v with
    | infinity s' => cases hq
    | notANumber => cases hq
    | zero s' => exact .of_reads trivial rfl
    | finite s' m' e' hm' => exact .of_reads trivial rfl
  | finite s m e hm =>
    cases v with
    | infinity s' => cases hq
    | notANumber => cases hq
    | zero s' =>
      obtain rfl := Reading.number.inj hq
      rw [mul_zero]
      exact .of_reads trivial rfl
    | finite s' m' e' hm' =>
      obtain rfl := Reading.number.inj hp
      obtain rfl := Reading.number.inj hq
      obtain ⟨-, he, hnormal⟩ := hu
      obtain ⟨-, he', hnormal'⟩ := hv
      have hpos : 0 < m * m' := Nat.mul_pos hm hm'
      have hbits : 52 ≤ (m * m').log2 ∨ e + e' ≤ -1074 := by
        rw [Nat.le_log2 hpos.ne']
        rcases hnormal with hm52 | rfl
        · exact .inl (hm52.trans (Nat.le_mul_of_pos_right m hm'))
        · rcases hnormal' with hm52 | rfl
          · exact .inl (hm52.trans (Nat.le_mul_of_pos_left m' hm))
          · exact .inr (by norm_num)
      have h := reads_roundWithAccuracy (s * s') (by exact_mod_cast hpos)
        (represents_exact (m * m')) hbits
      have hvalue : ((m * m' : ℕ) : ℚ) * 2 ^ (e + e') = m * 2 ^ e * (m' * 2 ^ e') := by
        rw [zpow_add₀ (by norm_num : (2 : ℚ) ≠ 0)]
        push_cast
        ring
      rw [hvalue, ← signed_mul_signed] at h
      exact h

/-! ## 4. Quotient -/

/-- Quotient and remainder of natural numbers know the fraction. -/
theorem represents_fraction (n : ℕ) {d : ℕ} (hd : 0 < d) :
    Represents (.ofMantissaAndAccuracy (n / d) (accuracyOfFraction (n % d) d)) ((n : ℚ) / d) := by
  have hdpos : (0 : ℚ) < d := by exact_mod_cast hd
  have hsplit : (n : ℚ) = d * (n / d : ℕ) + (n % d : ℕ) := by exact_mod_cast (Nat.div_add_mod n d).symm
  have hx : (n : ℚ) / d = (n / d : ℕ) + ((n % d : ℕ) : ℚ) / d := by
    rw [div_eq_iff hdpos.ne', add_mul, div_mul_cancel₀ _ hdpos.ne', mul_comm, ← hsplit]
  have hrest : ((n % d : ℕ) : ℚ) < d := by exact_mod_cast Nat.mod_lt n hd
  rw [hx]
  unfold accuracyOfFraction
  by_cases hzero : n % d = 0
  · rw [if_pos hzero, hzero, Nat.cast_zero, zero_div, add_zero]
    rfl
  · have hpos : (0 : ℚ) < (n % d : ℕ) := by exact_mod_cast Nat.pos_of_ne_zero hzero
    have hfraction : 0 < ((n % d : ℕ) : ℚ) / d := div_pos hpos hdpos
    have hone : ((n % d : ℕ) : ℚ) / d < 1 := (div_lt_one hdpos).mpr hrest
    rw [if_neg hzero]
    rcases lt_trichotomy (2 * (n % d)) d with hlt | heq | hgt
    · have hhalf : ((n % d : ℕ) : ℚ) / d < 1 / 2 := by
        rw [div_lt_div_iff₀ hdpos (by norm_num), one_mul, mul_comm]
        exact_mod_cast hlt
      rw [Nat.compare_eq_lt.mpr hlt]
      constructor <;> dsimp only [ExtendedMantissa.ofMantissaAndAccuracy] <;> linarith
    · have hhalf : ((n % d : ℕ) : ℚ) / d = 1 / 2 := by
        rw [div_eq_div_iff hdpos.ne' (by norm_num), one_mul, mul_comm]
        exact_mod_cast heq
      rw [Nat.compare_eq_eq.mpr heq, hhalf]
      rfl
    · have hhalf : 1 / 2 < ((n % d : ℕ) : ℚ) / d := by
        rw [div_lt_div_iff₀ (by norm_num) hdpos, one_mul, mul_comm]
        exact_mod_cast hgt
      rw [Nat.compare_eq_gt.mpr hgt]
      constructor <;> dsimp only [ExtendedMantissa.ofMantissaAndAccuracy] <;> linarith

/-- A quotient is computed with enough digits. -/
theorem divCore_bits {m m' : ℕ} (hm : 0 < m) (hm' : 0 < m') (e e' : ℤ) :
    52 ≤ (divCore Format.binary64 m e m' e').1.log2 ∨
      (divCore Format.binary64 m e m' e').2.1 ≤ -1074 := by
  have htarget : Format.binary64.targetExponent (totalExponent m e - totalExponent m' e') =
      max ((m.log2 : ℤ) + e - (m'.log2 + e') - 53) (-1074) := by
    rw [targetExponent_binary64, totalExponent, totalExponent]
    omega
  unfold divCore
  rw [htarget]
  dsimp only
  generalize ht : min (e - e') (max ((m.log2 : ℤ) + e - (m'.log2 + e') - 53) (-1074)) = t
  by_cases hfinest : t ≤ -1074
  · exact .inr hfinest
  · left
    have hshift : m'.log2 + 53 ≤ m.log2 + (e - e' - t).toNat := by omega
    have hnum : 2 ^ 52 * m' ≤ m <<< (e - e' - t).toNat := by
      calc 2 ^ 52 * m' ≤ 2 ^ 52 * 2 ^ (m'.log2 + 1) := Nat.mul_le_mul_left _ Nat.lt_log2_self.le
        _ = 2 ^ (m'.log2 + 53) := by rw [← pow_add]; congr 1; omega
        _ ≤ 2 ^ (m <<< (e - e' - t).toNat).log2 := by
          rw [log2_shiftLeft hm.ne']
          exact Nat.pow_le_pow_right (by norm_num) hshift
        _ ≤ m <<< (e - e' - t).toNat := Nat.log2_self_le (by
          rw [Nat.shiftLeft_eq]
          positivity)
    have hquot : 2 ^ 52 ≤ m <<< (e - e' - t).toNat / m' := (Nat.le_div_iff_mul_le hm').mpr hnum
    exact (Nat.le_log2 (by omega)).mpr hquot

/-- **A quotient is the rounded quotient.** -/
theorem roundsTo_div {u v : UnpackedFloat} {p q : ℚ} (hp : reads u = .number p)
    (hq : reads v = .number q) (hne : q ≠ 0) :
    RoundsTo (UnpackedFloat.div Format.binary64 u v) (p / q) := by
  cases v with
  | infinity s' => cases hq
  | notANumber => cases hq
  | zero s' => exact absurd (Reading.number.inj hq).symm hne
  | finite s' m' e' hm' =>
    obtain rfl := Reading.number.inj hq
    cases u with
    | infinity s => cases hp
    | notANumber => cases hp
    | zero s =>
      obtain rfl := Reading.number.inj hp
      rw [zero_div]
      exact .of_reads trivial rfl
    | finite s m e hm =>
      obtain rfl := Reading.number.inj hp
      have hbits := divCore_bits hm hm' e e'
      have hm'pos : (0 : ℚ) < m' := by exact_mod_cast hm'
      obtain ⟨k, t, hkt, hcore⟩ : ∃ (k : ℕ) (t : ℤ), k + t = e - e' ∧
          divCore Format.binary64 m e m' e' =
            (m <<< k / m', t, accuracyOfFraction (m <<< k % m') m') := by
        refine ⟨_, _, ?_, rfl⟩
        omega
      rw [hcore] at hbits
      have hnum : 0 < m <<< k := by
        rw [Nat.shiftLeft_eq]
        positivity
      have h := reads_roundWithAccuracy (s / s') (div_pos (by exact_mod_cast hnum) hm'pos)
        (represents_fraction (m <<< k) hm') hbits
      have hvalue : ((m <<< k : ℕ) : ℚ) / m' * 2 ^ t = m * 2 ^ e / (m' * 2 ^ e') := by
        have hpow : (2 : ℚ) ^ k * 2 ^ t = 2 ^ e / 2 ^ e' := by
          rw [← zpow_natCast, ← zpow_add₀ (by norm_num : (2 : ℚ) ≠ 0), hkt,
            zpow_sub₀ (by norm_num : (2 : ℚ) ≠ 0)]
        rw [Nat.shiftLeft_eq, mul_div_mul_comm, ← hpow]
        push_cast
        ring
      rw [hvalue, ← signed_div_signed] at h
      unfold UnpackedFloat.div
      dsimp only
      rw [hcore]
      exact h

/-! ## 5. Counts -/

/-- A count is converted by rounding it. -/
theorem roundsTo_ofNat (n : ℕ) : RoundsTo (UnpackedFloat.ofNat Format.binary64 n) n := by
  have h := roundsTo_normalize (n : ℤ) 0 .positive
  rwa [zpow_zero, mul_one, Int.cast_natCast] at h

/-- Reading a count as a decimal rounds it as well. -/
theorem roundsTo_ofScientific {n : ℕ} (hn : 0 < n) :
    RoundsTo (UnpackedFloat.ofScientific Format.binary64 n 0) n := by
  have hmantissa : (0 : ℚ) < (n <<< 53 * 1 : ℕ) := by
    rw [Nat.shiftLeft_eq]
    positivity
  have hbits : 52 ≤ (n <<< 53 * 1).log2 ∨ (-53 : ℤ) + 0 ≤ -1074 := by
    rw [mul_one, log2_shiftLeft hn.ne']
    omega
  have h := reads_roundWithAccuracy .positive hmantissa (represents_exact _) hbits
  have hvalue : ((n <<< 53 * 1 : ℕ) : ℚ) * 2 ^ ((-53 : ℤ) + 0) = n := by
    rw [Nat.shiftLeft_eq]
    push_cast
    rw [mul_one, mul_assoc]
    norm_num
  rw [hvalue] at h
  have hlarge : ¬ (0 : ℤ) > 2 ^ Format.binary64.exponentBits := by decide
  have hsmall : ¬ (0 : ℤ) < -((2 ^ Format.binary64.exponentBits : ℤ) + n.log2) := by
    have : (0 : ℤ) < 2 ^ Format.binary64.exponentBits := by decide
    omega
  unfold UnpackedFloat.ofScientific UnpackedFloat.mul
  rw [dif_neg hn.ne', if_neg hlarge, if_neg hsmall, if_pos (le_refl 0)]
  exact h

end PeerRatings.Unpacked
