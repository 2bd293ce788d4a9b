/-
# Packed doubles

A double is stored in 64 bits: the sign, eleven bits for the exponent, and the mantissa without its
leading digit.  In between operations a double is packed and unpacked again.  This file says that
nothing is lost on the way but what is too large: **packing and unpacking is `nearest`**
(`reads_pack`), and what comes out of storage is always in shape (`canonical_unpack`).

Doubles are compared as the numbers they say (`compare_of_reads`).  Without a sign, the stored bits
read as a natural number are in the same order (`lt_iff_key_lt`), since the exponent stands in front
of the mantissa.
-/
import Mathlib
import PeerRatings.Proofs.Arithmetic.Operations

namespace PeerRatings.Unpacked

open Float.Model Float.Model.UnpackedFloat Rounding

/-! ## 1. There and back -/

theorem unpack_pack_zero (s : Sign) : (Float.Model.pack (.zero s)).unpack = .zero s := by
  cases s <;> rfl

theorem unpack_pack_infinity (s : Sign) :
    (Float.Model.pack (.infinity s)).unpack = .infinity s := by
  cases s <;> rfl

theorem unpack_pack_notANumber : (Float.Model.pack .notANumber).unpack = .notANumber := rfl

theorem toNat_implicit (f : BitVec 52) : (1#1 ++ f).toNat = 2 ^ 52 + f.toNat := by
  rw [BitVec.toNat_append, ← Nat.shiftLeft_add_eq_or_of_lt f.isLt]
  rfl

theorem biasedExponent_eq (e : ℤ) : (e + (Format.binary64.exponentBias : ℕ) +
    (Format.binary64.mantissaBitsWithoutImplicit : ℕ)).toNat = (e + 1075).toNat := by
  simp only [Format.exponentBias]
  norm_num
  omega

/-- A leading digit is dropped, and counts for one in the exponent. -/
theorem pack_of_normal {s : Sign} {m : ℕ} {e : ℤ} {hm : 0 < m} (hlt : m < 2 ^ 53)
    (h52 : 2 ^ 52 ≤ m) (he : e ≤ 971) :
    UnpackedFloat.pack Format.binary64 (.finite s m e hm) =
      packComponents Format.binary64 s (.ofNat 11 (e + 1075).toNat) (.ofNat 52 m) := by
  have hfits : ¬ 2 ^ 11 ≤ (e + 1075).toNat + 1 := by omega
  have hlog : m.log2 + 1 = Format.binary64.mantissaBits := by
    rw [(Nat.log2_eq_iff hm.ne').mpr ⟨h52, hlt⟩]
    rfl
  unfold UnpackedFloat.pack
  dsimp only
  rw [biasedExponent_eq, if_neg hfits, if_pos hlog]

/-- Without a leading digit the exponent is written as zero. -/
theorem pack_of_subnormal {s : Sign} {m : ℕ} {hm : 0 < m} (h52 : m < 2 ^ 52) :
    UnpackedFloat.pack Format.binary64 (.finite s m (-1074) hm) =
      packComponents Format.binary64 s 0#11 (.ofNat 52 m) := by
  have hfits : ¬ 2 ^ 11 ≤ ((-1074 : ℤ) + 1075).toNat + 1 := by norm_num
  have hlog : ¬ m.log2 + 1 = Format.binary64.mantissaBits := by
    have hlt52 := (Nat.log2_lt hm.ne').mpr h52
    simp only [Format.mantissaBits]
    omega
  unfold UnpackedFloat.pack
  dsimp only
  rw [biasedExponent_eq, if_neg hfits, if_neg hlog]

/-- **What is not too large survives packing.** -/
theorem unpack_pack_finite {s : Sign} {m : ℕ} {e : ℤ} {hm : 0 < m}
    (hc : Canonical (.finite s m e hm)) (he : e ≤ 971) :
    (Float.Model.pack (.finite s m e hm)).unpack = .finite s m e hm := by
  obtain ⟨hlt, hfinest, hnormal⟩ := hc
  unfold Float.Model.unpack Float.Model.pack
  dsimp only
  by_cases h52 : 2 ^ 52 ≤ m
  · -- the exponent is neither of the two that mean something else
    have hexp : (BitVec.ofNat 11 (e + 1075).toNat).toNat = (e + 1075).toNat := by
      rw [BitVec.toNat_ofNat]
      exact Nat.mod_eq_of_lt (by omega)
    have hall : BitVec.ofNat 11 (e + 1075).toNat ≠ -1#11 := by
      rw [Ne, ← BitVec.toNat_inj, hexp]
      simp only [BitVec.neg_one_eq_allOnes, BitVec.toNat_allOnes]
      omega
    have hnone : BitVec.ofNat 11 (e + 1075).toNat ≠ 0#11 := by
      rw [Ne, ← BitVec.toNat_inj, hexp]
      simp only [BitVec.toNat_zero]
      omega
    have hmant : (1#1 ++ BitVec.ofNat 52 m).toNat = m := by
      rw [toNat_implicit, BitVec.toNat_ofNat]
      omega
    rw [pack_of_normal hlt h52 he]
    unfold UnpackedFloat.unpack
    simp only [unpackMantissa_packComponents, unpackExponent_packComponents,
      unpackSign_packComponents, Sign.ofBitVec_toBitVec, if_neg hall, if_neg hnone, hmant, hexp]
    congr 1
    simp only [Format.exponentBias]
    norm_num
    omega
  · obtain rfl : e = -1074 := hnormal.resolve_left h52
    have hmant : (BitVec.ofNat 52 m).toNat = m := by
      rw [BitVec.toNat_ofNat]
      exact Nat.mod_eq_of_lt (Nat.lt_of_not_le h52)
    have hsome : BitVec.ofNat 52 m ≠ 0#52 := by
      rw [Ne, ← BitVec.toNat_inj, hmant]
      exact hm.ne'
    rw [pack_of_subnormal (Nat.lt_of_not_le h52)]
    unfold UnpackedFloat.unpack
    simp only [unpackMantissa_packComponents, unpackExponent_packComponents,
      unpackSign_packComponents, Sign.ofBitVec_toBitVec, dif_neg hsome, hmant]
    rfl

theorem unpack_pack_large {s : Sign} {m : ℕ} {e : ℤ} {hm : 0 < m} (he : 971 < e) :
    (Float.Model.pack (.finite s m e hm)).unpack = .infinity s := by
  have hlarge : 2 ^ 11 ≤ (e + 1075).toNat + 1 := by omega
  unfold Float.Model.unpack Float.Model.pack UnpackedFloat.pack
  dsimp only
  rw [biasedExponent_eq, if_pos hlarge]
  exact unpack_pack_infinity s

/-! ## 2. What is stored -/

theorem shape_of_unpack {v : Float.Model} {s : Sign} {m : ℕ} {e : ℤ} {hm : 0 < m}
    (h : v.unpack = .finite s m e hm) : Canonical (.finite s m e hm) ∧ e ≤ 971 := by
  have hM : (@unpackMantissa Format.binary64 v.toBits.toBitVec).toNat < 2 ^ 52 :=
    BitVec.isLt _
  have hE : (@unpackExponent Format.binary64 v.toBits.toBitVec).toNat < 2 ^ 11 :=
    BitVec.isLt _
  have hbias : ((Format.binary64.exponentBias : ℕ) : ℤ) +
      (Format.binary64.mantissaBitsWithoutImplicit : ℕ) = 1075 := by decide
  unfold Float.Model.unpack UnpackedFloat.unpack at h
  dsimp only at h
  rw [hbias] at h
  split at h
  · split at h <;> cases h
  · rename_i hall
    split at h
    · rename_i hnone
      split at h
      · cases h
      · -- without a leading digit the step is the finest
        cases h
        rw [hnone]
        refine ⟨⟨by omega, by decide, .inr (by decide)⟩, by decide⟩
    · rename_i hsome
      cases h
      have hpos : (@unpackExponent Format.binary64 v.toBits.toBitVec).toNat ≠ 0 :=
        fun h => hsome (BitVec.eq_of_toNat_eq h)
      have hbelow : (@unpackExponent Format.binary64 v.toBits.toBitVec).toNat ≠ 2047 :=
        fun h => hall (BitVec.eq_of_toNat_eq h)
      have hm := toNat_implicit (@unpackMantissa Format.binary64 v.toBits.toBitVec)
      refine ⟨⟨?_, ?_, .inl ?_⟩, ?_⟩ <;> omega

/-- **What is stored is in shape.** -/
theorem canonical_unpack (v : Float.Model) : Canonical v.unpack := by
  cases h : v.unpack with
  | finite s m e hm => exact (shape_of_unpack h).1
  | _ => trivial

/-! ## 3. Too large for a double -/

/-- The least power of two that no double reaches. -/
def limit : ℚ := 2 ^ (1024 : ℤ)

theorem limit_pos : 0 < limit := two_zpow_pos 1024

/-- The sign of a number. -/
def signOf (q : ℚ) : Sign := if q < 0 then .negative else .positive

/-- What the double nearest to a number says. -/
def nearest (q : ℚ) : Reading :=
  if |rounded q| < limit then .number (rounded q) else .infinite (signOf q)

theorem abs_signed {q : ℚ} (s : Sign) (hq : 0 ≤ q) : |signed s q| = q := by
  cases s
  · rw [signed, abs_neg, abs_of_nonneg hq]
  · exact abs_of_nonneg hq

theorem abs_lt_limit {m : ℕ} {e : ℤ} (hm : m < 2 ^ 53) (he : e ≤ 971) :
    (m : ℚ) * 2 ^ e < limit := by
  have hcast : (m : ℚ) < 2 ^ (53 : ℤ) := by exact_mod_cast hm
  calc (m : ℚ) * 2 ^ e < 2 ^ (53 : ℤ) * 2 ^ e := mul_lt_mul_of_pos_right hcast (two_zpow_pos e)
    _ = 2 ^ (53 + e) := (zpow_add₀ (by norm_num : (2 : ℚ) ≠ 0) 53 e).symm
    _ ≤ limit := zpow_le_zpow_right₀ (by norm_num) (by omega)

theorem limit_le_abs {m : ℕ} {e : ℤ} (hm : 2 ^ 52 ≤ m) (he : 971 < e) :
    limit ≤ (m : ℚ) * 2 ^ e := by
  have hcast : (2 : ℚ) ^ (52 : ℤ) ≤ m := by exact_mod_cast hm
  calc limit ≤ 2 ^ (52 + e) := zpow_le_zpow_right₀ (by norm_num) (by omega)
    _ = 2 ^ (52 : ℤ) * 2 ^ e := zpow_add₀ (by norm_num : (2 : ℚ) ≠ 0) 52 e
    _ ≤ m * 2 ^ e := mul_le_mul_of_nonneg_right hcast (two_zpow_pos e).le

/-- **A rounded result, once packed, is the double nearest to the exact one.** -/
theorem reads_pack {u : UnpackedFloat} {q : ℚ} (h : RoundsTo u q) :
    reads (Float.Model.pack u).unpack = nearest q := by
  obtain ⟨hc, hreads⟩ := h
  unfold nearest
  cases u with
  | infinity s => cases hreads
  | notANumber => cases hreads
  | zero s =>
    have hzero := Reading.number.inj hreads
    rw [unpack_pack_zero, ← hzero, abs_zero, if_pos limit_pos]
    rfl
  | finite s m e hm =>
    have hvalue := Reading.number.inj hreads
    have hpos : (0 : ℚ) < m * 2 ^ e := mul_pos (by exact_mod_cast hm) (two_zpow_pos e)
    rw [← hvalue, abs_signed s hpos.le]
    by_cases he : e ≤ 971
    · rw [unpack_pack_finite hc he, if_pos (abs_lt_limit hc.1 he)]
      rfl
    · have hnormal : 2 ^ 52 ≤ m := hc.2.2.resolve_right (by omega)
      have hlarge := limit_le_abs hnormal (by omega : 971 < e)
      rw [unpack_pack_large (by omega), if_neg (not_lt.mpr hlarge), reads, signOf]
      cases s
      · have hneg : q < 0 := by
          by_contra hq
          have hnonneg := rounded_nonneg (not_lt.mp hq)
          rw [← hvalue, signed] at hnonneg
          linarith
        rw [if_pos hneg]
      · have hnonneg : ¬ q < 0 := by
          intro hq
          have hmono := rounded_mono hq.le
          rw [← hvalue, signed, rounded_zero] at hmono
          linarith
        rw [if_neg hnonneg]

/-! ## 4. The order of numbers -/

/-- Without signs, numbers are compared by exponent and then by mantissa. -/
theorem compare_finite {m m' : ℕ} {e e' : ℤ} {hm : 0 < m} {hm' : 0 < m'}
    (hc : Canonical (.finite .positive m e hm)) (hc' : Canonical (.finite .positive m' e' hm')) :
    (compare e e').then (compare m m') = compare ((m : ℚ) * 2 ^ e) (m' * 2 ^ e') := by
  have hstep : ∀ {m m' : ℕ} {e e' : ℤ}, m < 2 ^ 53 → (2 ^ 52 ≤ m' ∨ e' = -1074) → -1074 ≤ e →
      e < e' → (m : ℚ) * 2 ^ e < m' * 2 ^ e' := by
    intro m m' e e' hlt hnormal he hee
    have hm52 : (2 : ℚ) ^ (52 : ℤ) ≤ m' := by
      exact_mod_cast hnormal.resolve_right (by omega)
    have hm53 : (m : ℚ) < 2 ^ (53 : ℤ) := by exact_mod_cast hlt
    calc (m : ℚ) * 2 ^ e < 2 ^ (53 : ℤ) * 2 ^ e := mul_lt_mul_of_pos_right hm53 (two_zpow_pos e)
      _ = 2 ^ (53 + e) := (zpow_add₀ (by norm_num : (2 : ℚ) ≠ 0) _ _).symm
      _ ≤ 2 ^ (52 + e') := zpow_le_zpow_right₀ (by norm_num) (by omega)
      _ = 2 ^ (52 : ℤ) * 2 ^ e' := zpow_add₀ (by norm_num : (2 : ℚ) ≠ 0) _ _
      _ ≤ m' * 2 ^ e' := mul_le_mul_of_nonneg_right hm52 (two_zpow_pos e').le
  obtain ⟨hlt, hfinest, hnormal⟩ := hc
  obtain ⟨hlt', hfinest', hnormal'⟩ := hc'
  rcases lt_trichotomy e e' with he | rfl | he
  · rw [compare_lt_iff_lt.mpr he, compare_lt_iff_lt.mpr (hstep hlt hnormal' hfinest he)]
    rfl
  · rw [compare_eq_iff_eq.mpr rfl, Ordering.eq_then]
    rcases lt_trichotomy m m' with h | rfl | h
    · have hcast : (m : ℚ) < m' := by exact_mod_cast h
      rw [compare_lt_iff_lt.mpr h,
        compare_lt_iff_lt.mpr (mul_lt_mul_of_pos_right hcast (two_zpow_pos e))]
    · rw [compare_eq_iff_eq.mpr rfl, compare_eq_iff_eq.mpr rfl]
    · have hcast : (m' : ℚ) < m := by exact_mod_cast h
      rw [compare_gt_iff_gt.mpr h,
        compare_gt_iff_gt.mpr (mul_lt_mul_of_pos_right hcast (two_zpow_pos e))]
  · rw [compare_gt_iff_gt.mpr he, compare_gt_iff_gt.mpr (hstep hlt' hnormal hfinest' he)]
    rfl

theorem compare_neg (p q : ℚ) : compare (-p) (-q) = (compare p q).swap := by
  rcases lt_trichotomy p q with h | rfl | h
  · rw [compare_lt_iff_lt.mpr h, compare_gt_iff_gt.mpr (neg_lt_neg h)]
    rfl
  · rw [compare_eq_iff_eq.mpr rfl, compare_eq_iff_eq.mpr rfl]
    rfl
  · rw [compare_gt_iff_gt.mpr h, compare_lt_iff_lt.mpr (neg_lt_neg h)]
    rfl

/-- **Comparing doubles that say numbers is comparing the numbers.** -/
theorem compare_of_reads {u v : UnpackedFloat} {p q : ℚ} (hu : Canonical u) (hv : Canonical v)
    (hp : reads u = .number p) (hq : reads v = .number q) :
    UnpackedFloat.compare u v = some (compare p q) := by
  have hpos : ∀ {m : ℕ} {e : ℤ}, 0 < m → (0 : ℚ) < m * 2 ^ e := fun hm =>
    mul_pos (by exact_mod_cast hm) (two_zpow_pos _)
  cases u with
  | infinity s => cases hp
  | notANumber => cases hp
  | zero s =>
    obtain rfl := Reading.number.inj hp
    cases v with
    | infinity s' => cases hq
    | notANumber => cases hq
    | zero s' =>
      obtain rfl := Reading.number.inj hq
      rw [compare_eq_iff_eq.mpr rfl]
      rfl
    | finite s' m' e' hm' =>
      obtain rfl := Reading.number.inj hq
      cases s'
      · rw [signed, compare_gt_iff_gt.mpr (neg_lt_zero.mpr (hpos hm'))]
        rfl
      · rw [signed, compare_lt_iff_lt.mpr (hpos hm')]
        rfl
  | finite s m e hm =>
    obtain rfl := Reading.number.inj hp
    cases v with
    | infinity s' => cases hq
    | notANumber => cases hq
    | zero s' =>
      obtain rfl := Reading.number.inj hq
      cases s
      · rw [signed, compare_lt_iff_lt.mpr (neg_lt_zero.mpr (hpos hm))]
        rfl
      · rw [signed, compare_gt_iff_gt.mpr (hpos hm)]
        rfl
    | finite s' m' e' hm' =>
      obtain rfl := Reading.number.inj hq
      have hfinite := @compare_finite m m' e e' hm hm' hu hv
      cases s <;> cases s'
      · rw [signed, signed, compare_neg, ← hfinite]
        rfl
      · rw [signed, signed, compare_lt_iff_lt.mpr ((neg_lt_zero.mpr (hpos hm)).trans (hpos hm'))]
        rfl
      · rw [signed, signed, compare_gt_iff_gt.mpr ((neg_lt_zero.mpr (hpos hm')).trans (hpos hm))]
        rfl
      · rw [signed, signed, ← hfinite]
        rfl

/-! ## 5. The order of stored doubles -/

/-- The stored bits of a double without a sign, as a natural number. -/
def key : UnpackedFloat → ℕ
  | .finite _ m e _ => (e + 1074).toNat * 2 ^ 52 + m
  | _ => 0

theorem toNat_packComponents (e : BitVec 11) (m : BitVec 52) :
    (packComponents Format.binary64 .positive e m).toNat = e.toNat * 2 ^ 52 + m.toNat := by
  change (0#1 ++ e ++ m).toNat = _
  rw [BitVec.toNat_append, ← Nat.shiftLeft_add_eq_or_of_lt m.isLt, BitVec.toNat_append]
  simp [Nat.shiftLeft_eq]

/-- The key of a double is its stored bits. -/
theorem toNat_pack_finite {m : ℕ} {e : ℤ} {hm : 0 < m}
    (hc : Canonical (.finite .positive m e hm)) (he : e ≤ 971) :
    (Float.Model.pack (.finite .positive m e hm)).toBits.toNat = key (.finite .positive m e hm) := by
  obtain ⟨hlt, hfinest, hnormal⟩ := hc
  change (UnpackedFloat.pack Format.binary64 (.finite .positive m e hm)).toNat = _
  unfold key
  dsimp only
  by_cases h52 : 2 ^ 52 ≤ m
  · rw [pack_of_normal hlt h52 he, toNat_packComponents, BitVec.toNat_ofNat, BitVec.toNat_ofNat]
    omega
  · obtain rfl : e = -1074 := hnormal.resolve_left h52
    rw [pack_of_subnormal (Nat.lt_of_not_le h52), toNat_packComponents, BitVec.toNat_zero,
      BitVec.toNat_ofNat]
    omega

/-- **Without signs, comparing numbers is comparing stored bits.** -/
theorem lt_iff_key_lt {m m' : ℕ} {e e' : ℤ} {hm : 0 < m} {hm' : 0 < m'}
    (hc : Canonical (.finite .positive m e hm)) (hc' : Canonical (.finite .positive m' e' hm')) :
    UnpackedFloat.lt (.finite .positive m e hm) (.finite .positive m' e' hm') = true ↔
      key (.finite .positive m e hm) < key (.finite .positive m' e' hm') := by
  obtain ⟨hlt, hfinest, hnormal⟩ := hc
  obtain ⟨hlt', hfinest', hnormal'⟩ := hc'
  simp only [UnpackedFloat.lt, UnpackedFloat.compare, key]
  rcases lt_trichotomy e e' with he | rfl | he
  · rw [Int.compare_eq_lt.mpr he]
    refine iff_of_true rfl ?_
    omega
  · rw [Int.compare_eq_eq.mpr rfl, Ordering.eq_then, beq_iff_eq, Option.some.injEq,
      Nat.compare_eq_lt]
    omega
  · rw [Int.compare_eq_gt.mpr he]
    refine iff_of_false Bool.false_ne_true ?_
    omega

end PeerRatings.Unpacked
