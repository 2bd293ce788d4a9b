/-
# The total order in terms of numbers

The order in which scores are ranked is defined on stored bits.  This file says what it is for the
values they stand for (`Above`, `Score.key_lt_iff`): **numbers and infinities are ordered by value,
with the zero with a sign below the one without; all NaNs without the sign bit lie above them and
all NaNs with it below.**  So the order agrees with the numeric comparison wherever that tells two
scores apart.  It decides the rest by the NaNs and the two zeros alone, and two NaNs of one sign by
their patterns.

The stored exponent and mantissa, read as one number, are the magnitude of a double, and the sign
mirrors it (`patternKey_eq`).  Unpacking keeps this place (`patternKey_eq_place`), and unpacked
doubles are compared kind by kind.  Only two finite magnitudes have to be measured; that is
`lt_iff_key_lt`.  All other pairs are told apart by their kinds and signs, since a stored magnitude
lies above zero and below that of an infinity (`key_bounds`).

Doubles have one NaN and patterns have many.  What is no NaN is the same as a double and as a
pattern (`Score.ofFloat_value`), so the comparison of doubles carries over, and the NaNs are the
patterns whose magnitude lies above that of an infinity (`Score.isAbsent_value_iff`).
-/
import PeerRatings.Arithmetic.TotalOrder
import PeerRatings.Proofs.Arithmetic.Doubles

namespace PeerRatings

open Float.Model Float.Model.UnpackedFloat Unpacked

namespace Unpacked

/-! ## 1. The place of a stored pattern -/

/-- The place of a magnitude with its sign: below zero, the larger the magnitude the lower. -/
def signedPlace : Sign → ℕ → ℤ
  | .positive, n => n
  | .negative, n => -1 - n

/-- The place of an unpacked double.  An infinity has the magnitude that would come next after the
finite ones. -/
def place : UnpackedFloat → ℤ
  | .zero s => signedPlace s 0
  | .finite s m e hm => signedPlace s (key (.finite s m e hm))
  | .infinity s => signedPlace s (2047 * 2 ^ 52)
  | .notANumber => 2047 * 2 ^ 52 + 2 ^ 51

theorem toNat_unpackMantissa (b : BitVec 64) :
    (@unpackMantissa Format.binary64 b).toNat = b.toNat % 2 ^ 52 := by
  change (b.extractLsb 51 0).toNat = _
  rw [BitVec.extractLsb_toNat]
  rfl

theorem toNat_unpackExponent (b : BitVec 64) :
    (@unpackExponent Format.binary64 b).toNat = b.toNat / 2 ^ 52 % 2 ^ 11 := by
  change (b.extractLsb 62 52).toNat = _
  rw [BitVec.extractLsb_toNat, Nat.shiftRight_eq_div_pow]

theorem toNat_unpackSign (b : BitVec 64) :
    (@unpackSign Format.binary64 b).toNat = b.toNat / 2 ^ 63 := by
  change (b.extractLsb 63 63).toNat = _
  rw [BitVec.extractLsb_toNat, Nat.shiftRight_eq_div_pow]
  omega

/-- **The place of a pattern is that of its magnitude with its sign.** -/
theorem patternKey_eq (b : BitVec 64) :
    patternKey b.toNat = signedPlace (Sign.ofBitVec (@unpackSign Format.binary64 b))
      ((@unpackExponent Format.binary64 b).toNat * 2 ^ 52 +
        (@unpackMantissa Format.binary64 b).toNat) := by
  have hsign := toNat_unpackSign b
  have hlt := b.isLt
  rw [toNat_unpackExponent, toNat_unpackMantissa, Sign.ofBitVec]
  by_cases hpos : @unpackSign Format.binary64 b = 0#1
  · have hbelow : b.toNat < signBit := by
      rw [hpos, BitVec.toNat_zero] at hsign
      unfold signBit
      omega
    rw [patternKey, if_pos hbelow, if_pos hpos, signedPlace]
    unfold signBit at hbelow
    omega
  · have habove : ¬ b.toNat < signBit := by
      have hone : (@unpackSign Format.binary64 b).toNat ≠ 0 :=
        fun h => hpos (BitVec.eq_of_toNat_eq h)
      unfold signBit
      omega
    rw [patternKey, if_neg habove, if_neg hpos, signedPlace]
    unfold signBit at habove ⊢
    omega

/-- **Unpacking keeps the place.** -/
theorem patternKey_eq_place (v : Float.Model) : patternKey v.toBits.toNat = place v.unpack := by
  change patternKey v.toBits.toBitVec.toNat = _
  have hbias : ((Format.binary64.exponentBias : ℕ) : ℤ) +
      (Format.binary64.mantissaBitsWithoutImplicit : ℕ) = 1075 := by decide
  rw [patternKey_eq]
  unfold Float.Model.unpack UnpackedFloat.unpack
  dsimp only
  rw [hbias]
  split
  · rename_i hall
    split
    · rename_i hnone
      rw [hall, hnone]
      rfl
    · -- of the patterns that say nothing only one is ever stored
      rename_i hsome
      rw [v.valid.eq_packedNaN hall hsome]
      decide +kernel
  · split
    · rename_i hzero
      rw [hzero]
      split
      · rename_i hnone
        rw [hnone]
        rfl
      · simp [place, key]
    · rename_i hsome
      have hpos : (@unpackExponent Format.binary64 v.toBits.toBitVec).toNat ≠ 0 :=
        fun h => hsome (BitVec.eq_of_toNat_eq h)
      rw [place, key, toNat_implicit]
      refine congrArg (signedPlace _) ?_
      omega

/-! ## 2. Unpacked doubles by place -/

/-- A stored magnitude lies above zero and below that of an infinity. -/
theorem key_bounds {v : Float.Model} {s : Sign} {m : ℕ} {e : ℤ} {hm : 0 < m}
    (h : v.unpack = .finite s m e hm) :
    0 < key (.finite s m e hm) ∧ key (.finite s m e hm) < 2047 * 2 ^ 52 := by
  obtain ⟨hc, he⟩ := shape_of_unpack h
  have hlt := hc.1
  rw [key]
  omega

/-- Below zero it is the larger magnitude that is less. -/
theorem lt_negative {m m' : ℕ} {e e' : ℤ} {hm : 0 < m} {hm' : 0 < m'} :
    UnpackedFloat.lt (.finite .negative m e hm) (.finite .negative m' e' hm') =
      UnpackedFloat.lt (.finite .positive m' e' hm') (.finite .positive m e hm) := by
  simp only [UnpackedFloat.lt, UnpackedFloat.compare, Ordering.swap_then, Int.compare_swap,
    Nat.compare_swap]

/-- Finite doubles are ordered alike by value and by place. -/
theorem place_lt_iff_of_finite {a b : Float.Model} {s s' : Sign} {m m' : ℕ} {e e' : ℤ}
    {hm : 0 < m} {hm' : 0 < m'} (ha : a.unpack = .finite s m e hm)
    (hb : b.unpack = .finite s' m' e' hm') :
    place (.finite s m e hm) < place (.finite s' m' e' hm') ↔
      UnpackedFloat.lt (.finite s m e hm) (.finite s' m' e' hm') = true := by
  have hc := (shape_of_unpack ha).1
  have hc' := (shape_of_unpack hb).1
  cases s <;> cases s' <;> simp only [place, signedPlace]
  · rw [lt_negative, lt_iff_key_lt hc' hc, sub_lt_sub_iff_left, Nat.cast_lt]
    rfl
  · refine iff_of_true ?_ rfl
    omega
  · refine iff_of_false ?_ Bool.false_ne_true
    omega
  · rw [lt_iff_key_lt hc hc', Nat.cast_lt]

/-- **By place and by value, doubles that are not the NaN are ordered alike, but for the zeros.** -/
theorem place_lt_iff_of_ne {a b : Float.Model} (ha : a.unpack ≠ .notANumber)
    (hb : b.unpack ≠ .notANumber) :
    place a.unpack < place b.unpack ↔ UnpackedFloat.lt a.unpack b.unpack = true ∨
      (a.unpack = .zero .negative ∧ b.unpack = .zero .positive) := by
  cases hu : a.unpack with
  | notANumber => exact absurd hu ha
  | infinity s | zero s =>
    cases hv : b.unpack with
    | notANumber => exact absurd hv hb
    | infinity s' | zero s' =>
      cases s <;> cases s' <;>
        simp [place, signedPlace, UnpackedFloat.lt, UnpackedFloat.compare, compare]
    | finite s' m e hm =>
      have hkey := key_bounds hv
      cases s <;> cases s' <;>
        simp [place, signedPlace, UnpackedFloat.lt, UnpackedFloat.compare] <;> omega
  | finite s m e hm =>
    cases hv : b.unpack with
    | notANumber => exact absurd hv hb
    | infinity s' | zero s' =>
      have hkey := key_bounds hu
      cases s <;> cases s' <;>
        simp [place, signedPlace, UnpackedFloat.lt, UnpackedFloat.compare] <;> omega
    | finite s' m' e' hm' =>
      rw [place_lt_iff_of_finite hu hv]
      simp

end Unpacked

/-! ## 3. Doubles by place -/

variable {x y : Float}

theorem orderKey_eq_place (x : Float) : orderKey x = place x.toModel.unpack :=
  patternKey_eq_place x.toModel

/-- Nothing is lost by unpacking. -/
theorem eq_of_unpack_eq (h : x.toModel.unpack = y.toModel.unpack) : x = y :=
  orderKey_injective (by rw [orderKey_eq_place, orderKey_eq_place, h])

theorem eq_zero_iff : x = 0.0 ↔ x.toModel.unpack = .zero .positive :=
  ⟨fun h => h ▸ unpack_zero, fun h => eq_of_unpack_eq (h.trans unpack_zero.symm)⟩

theorem eq_neg_zero_iff : x = -0.0 ↔ x.toModel.unpack = .zero .negative :=
  ⟨fun h => h ▸ unpack_neg_zero, fun h => eq_of_unpack_eq (h.trans unpack_neg_zero.symm)⟩

theorem isAbsent_iff_unpack : Arithmetic.isAbsent x = true ↔ x.toModel.unpack = .notANumber :=
  isAbsent_iff.trans ⟨unpack_of_absent, fun h => congrArg reads h⟩

/-- **Where there is no NaN, the total order is the numeric one with the zeros told apart.** -/
theorem orderKey_lt_iff (hx : Arithmetic.isAbsent x = false) (hy : Arithmetic.isAbsent y = false) :
    orderKey x < orderKey y ↔ x < y ∨ (x = -0.0 ∧ y = 0.0) := by
  rw [← Bool.not_eq_true, isAbsent_iff_unpack] at hx hy
  rw [lt_iff_unpack, eq_zero_iff, eq_neg_zero_iff, orderKey_eq_place, orderKey_eq_place]
  exact place_lt_iff_of_ne hx hy

/-- The numeric comparison says nothing of a NaN. -/
theorem isAbsent_eq_false_of_lt (h : x < y) :
    Arithmetic.isAbsent x = false ∧ Arithmetic.isAbsent y = false := by
  rw [lt_iff_unpack] at h
  simp only [← Bool.not_eq_true, isAbsent_iff_unpack]
  constructor
  · intro hx
    rw [hx] at h
    cases h
  · intro hy
    rw [hy] at h
    cases hu : x.toModel.unpack <;> rw [hu] at h <;> cases h

/-! ## 4. Scores by place -/

theorem unpack_eq_notANumber_iff {b : BitVec 64} :
    UnpackedFloat.unpack Format.binary64 b = .notANumber ↔
      @unpackExponent Format.binary64 b = -1#11 ∧ @unpackMantissa Format.binary64 b ≠ 0#52 := by
  unfold UnpackedFloat.unpack
  dsimp only
  split
  · rename_i hall
    split <;> simp_all
  · rename_i hsome
    refine iff_of_false ?_ fun h => hsome h.1
    split
    · split <;> simp
    · simp

/-- A pattern that is no NaN is the pattern of a double. -/
theorem valid_of_unpack {b : BitVec 64}
    (h : UnpackedFloat.unpack Format.binary64 b ≠ .notANumber) : Format.binary64.Valid b :=
  ⟨fun hall hsome => absurd (unpack_eq_notANumber_iff.mpr ⟨hall, hsome⟩) h⟩

namespace Score

variable {x y : Score}

/-- A score is read as its pattern says. -/
theorem unpack_value (x : Score) :
    x.value.toModel.unpack = UnpackedFloat.unpack Format.binary64 x.bits.toBitVec := by
  change (Float.Model.pack (UnpackedFloat.unpack Format.binary64 x.bits.toBitVec)).unpack = _
  cases hu : UnpackedFloat.unpack Format.binary64 x.bits.toBitVec with
  | notANumber => exact unpack_pack_notANumber
  | infinity s => exact unpack_pack_infinity s
  | zero s => exact unpack_pack_zero s
  | finite s m e hm =>
    -- the shape of a finite value is known of doubles only, and such a pattern is one
    have hvalid : Format.binary64.Valid x.bits.toBitVec := valid_of_unpack (by rw [hu]; nofun)
    obtain ⟨hc, he⟩ := shape_of_unpack (v := ⟨x.bits, hvalid⟩) hu
    exact unpack_pack_finite hc he

/-- **What is no NaN is kept bit for bit as a double.** -/
theorem ofFloat_value (h : Arithmetic.isAbsent x.value = false) : ofFloat x.value = x := by
  rw [← Bool.not_eq_true, isAbsent_iff_unpack, unpack_value] at h
  have hdouble : x.value = .ofModel ⟨x.bits, valid_of_unpack h⟩ := eq_of_unpack_eq x.unpack_value
  rw [hdouble]
  rfl

/-- **A NaN lies beyond the infinities**, on the side of its sign bit. -/
theorem isAbsent_value_iff :
    Arithmetic.isAbsent x.value = true ↔ x.key < -1 - 2047 * 2 ^ 52 ∨ 2047 * 2 ^ 52 < x.key := by
  have hexponent := toNat_unpackExponent x.bits.toBitVec
  have hmantissa := toNat_unpackMantissa x.bits.toBitVec
  have hlt := x.bits.toBitVec.isLt
  rw [isAbsent_iff_unpack, unpack_value, unpack_eq_notANumber_iff, Ne, ← BitVec.toNat_inj,
    ← BitVec.toNat_inj, hexponent, hmantissa, key, patternKey, signBit]
  rw [UInt64.toNat_toBitVec] at hlt ⊢
  simp only [BitVec.neg_one_eq_allOnes, BitVec.toNat_allOnes, BitVec.toNat_zero]
  split <;> omega

/-- A NaN without the sign bit. -/
def HighNaN (x : Score) : Prop := Arithmetic.isAbsent x.value = true ∧ x.bits.toNat < signBit

/-- A NaN with the sign bit. -/
def LowNaN (x : Score) : Prop := Arithmetic.isAbsent x.value = true ∧ signBit ≤ x.bits.toNat

theorem highNaN_iff : x.HighNaN ↔ 2047 * 2 ^ 52 < x.key := by
  rw [HighNaN, isAbsent_value_iff, key, patternKey, signBit]
  split <;> omega

theorem lowNaN_iff : x.LowNaN ↔ x.key < -1 - 2047 * 2 ^ 52 := by
  rw [LowNaN, isAbsent_value_iff, key, patternKey, signBit]
  split <;> omega

end Score

/-- `y` lies above `x`. -/
inductive Above (y x : Score) : Prop where
  /-- It is greater as a number. -/
  | number : x.value < y.value → Above y x
  /-- The two are the zeros, and `x` is the one with a sign. -/
  | zero : x = .ofFloat (-0.0) → y = .ofFloat 0.0 → Above y x
  /-- It is a NaN without the sign bit, and `x` is none or one with a lower pattern. -/
  | highNaN : y.HighNaN → (x.HighNaN → x.bits < y.bits) → Above y x
  /-- `x` is a NaN with the sign bit, and `y` is none or one with a lower pattern. -/
  | lowNaN : x.LowNaN → (y.LowNaN → y.bits < x.bits) → Above y x

namespace Score

variable {x y : Score}

/-- Where there is no NaN, scores are compared like the doubles that they stand for. -/
theorem key_lt_iff_of_present (hx : Arithmetic.isAbsent x.value = false)
    (hy : Arithmetic.isAbsent y.value = false) :
    x.key < y.key ↔ x.value < y.value ∨ (x = .ofFloat (-0.0) ∧ y = .ofFloat 0.0) := by
  have hzero : ∀ {z : Score} (a : Float), Arithmetic.isAbsent z.value = false →
      (z.value = a ↔ z = .ofFloat a) := fun a hz =>
    ⟨fun h => h ▸ (ofFloat_value hz).symm, fun h => ofFloat_injective ((ofFloat_value hz).trans h)⟩
  rw [← hzero _ hx, ← hzero _ hy, ← orderKey_lt_iff hx hy, ← key_ofFloat, ← key_ofFloat,
    ofFloat_value hx, ofFloat_value hy]

/-- NaNs without the sign bit are compared by their patterns. -/
theorem key_lt_iff_of_highNaN (hx : x.HighNaN) (hy : y.HighNaN) :
    x.key < y.key ↔ x.bits < y.bits := by
  rw [key, key, patternKey, patternKey, if_pos hx.2, if_pos hy.2, Int.ofNat_lt,
    UInt64.lt_iff_toNat_lt]

/-- NaNs with the sign bit are compared the other way round. -/
theorem key_lt_iff_of_lowNaN (hx : x.LowNaN) (hy : y.LowNaN) :
    x.key < y.key ↔ y.bits < x.bits := by
  rw [key, key, patternKey, patternKey, if_neg hx.2.not_gt, if_neg hy.2.not_gt,
    UInt64.lt_iff_toNat_lt]
  omega

/-- Between the infinities there is no NaN. -/
theorem isAbsent_eq_false_of_key (hlow : -1 - 2047 * 2 ^ 52 ≤ x.key)
    (hhigh : x.key ≤ 2047 * 2 ^ 52) : Arithmetic.isAbsent x.value = false := by
  rw [← Bool.not_eq_true, isAbsent_value_iff]
  omega

theorem above_of_key_lt (h : x.key < y.key) : Above y x := by
  by_cases hy : y.HighNaN
  · exact .highNaN hy fun hx => (key_lt_iff_of_highNaN hx hy).mp h
  by_cases hx : x.LowNaN
  · exact .lowNaN hx fun hy => (key_lt_iff_of_lowNaN hx hy).mp h
  -- `y` is not at the upper end and `x` not at the lower one, so neither lies beyond an infinity
  rw [highNaN_iff] at hy
  rw [lowNaN_iff] at hx
  have hx' := x.isAbsent_eq_false_of_key (by omega) (by omega)
  have hy' := y.isAbsent_eq_false_of_key (by omega) (by omega)
  rcases (key_lt_iff_of_present hx' hy').mp h with hvalue | ⟨rfl, rfl⟩
  · exact .number hvalue
  · exact .zero rfl rfl

theorem key_lt_of_above (h : Above y x) : x.key < y.key := by
  cases h with
  | number hvalue =>
    obtain ⟨hx, hy⟩ := isAbsent_eq_false_of_lt hvalue
    exact (key_lt_iff_of_present hx hy).mpr (.inl hvalue)
  | zero hx hy =>
    rw [hx, hy]
    decide +kernel
  | highNaN hy hbits =>
    by_cases hx : x.HighNaN
    · exact (key_lt_iff_of_highNaN hx hy).mpr (hbits hx)
    · rw [highNaN_iff] at hx hy
      omega
  | lowNaN hx hbits =>
    by_cases hy : y.LowNaN
    · exact (key_lt_iff_of_lowNaN hx hy).mpr (hbits hy)
    · rw [lowNaN_iff] at hx hy
      omega

/-- **The total order is the numeric one, with the zeros told apart and the NaNs at both ends.** -/
theorem key_lt_iff : x.key < y.key ↔ Above y x := ⟨above_of_key_lt, key_lt_of_above⟩

/-- What is not above has no greater place. -/
theorem not_above_iff : ¬ Above y x ↔ y.key ≤ x.key := by
  rw [← key_lt_iff, not_lt]

end Score

end PeerRatings
