/-
# What doubles say

A double says a number, or the sign of something too large, or nothing (`reading`).  The two zeros
say the same number, and otherwise a double is what it says.

For doubles that say numbers an operation says what the exact operation on these numbers is
rounded to, or the sign of it where that is too large (`reading_add`, `reading_sub`, `reading_mul`,
`reading_div`), and a count says what it is rounded to (`reading_ofCount`).  No number comes out of
a sum, or out of the numerator of a quotient, that was not one before (`number_of_reading_add`,
`number_of_reading_div`).

Numbers are compared by value (`numLt_iff`, `numLe_iff`, `numEq_iff`).  Magnitudes are ordered alike
by value and by the place of the stored bits (`abs_lt_abs_iff`).
-/
import PeerRatings.Arithmetic.TotalOrder
import PeerRatings.Arithmetic.Basic
import PeerRatings.Proofs.Arithmetic.Packing

namespace PeerRatings

open Float.Model Rounding Unpacked

/-- What a double says. -/
def reading (x : Float) : Reading := reads x.toModel.unpack

variable {x y : Float} {p q : ℚ}

/-! ## 1. Kinds of doubles -/

/-- Finite doubles are those that say a number. -/
theorem isFinite_iff : Arithmetic.isFinite x = true ↔ ∃ q, reading x = .number q := by
  change x.toModel.unpack.isFinite = true ↔ ∃ q, reads x.toModel.unpack = .number q
  cases x.toModel.unpack <;> simp [UnpackedFloat.isFinite, reads]

/-- Absent doubles are those that say nothing. -/
theorem isAbsent_iff : Arithmetic.isAbsent x = true ↔ reading x = .absent := by
  change x.toModel.unpack.isNaN = true ↔ reads x.toModel.unpack = .absent
  cases x.toModel.unpack <;> simp [UnpackedFloat.isNaN, reads]

/-- A double that says a number is a zero, or finite and in shape. -/
theorem unpack_of_reading (h : reading x = .number q) :
    (∃ s, x.toModel.unpack = .zero s ∧ q = 0) ∨
      ∃ s m e hm, x.toModel.unpack = .finite s m e hm ∧ q = signed s (m * 2 ^ e) ∧
        Canonical (.finite .positive m e hm) ∧ e ≤ 971 := by
  unfold reading at h
  cases hu : x.toModel.unpack with
  | zero s =>
    rw [hu] at h
    exact .inl ⟨s, rfl, (Reading.number.inj h).symm⟩
  | finite s m e hm =>
    rw [hu] at h
    obtain ⟨hc, he⟩ := shape_of_unpack hu
    exact .inr ⟨s, m, e, hm, rfl, (Reading.number.inj h).symm, hc, he⟩
  | infinity s => rw [hu] at h; cases h
  | notANumber => rw [hu] at h; cases h

/-- What a double says is on the grid. -/
theorem representable_of_reading (h : reading x = .number q) : Representable q :=
  representable_of_reads (canonical_unpack _) h

/-! ## 2. Operations on numbers -/

theorem reading_add (hx : reading x = .number p) (hy : reading y = .number q) :
    reading (x + y) = nearest (p + q) :=
  reads_pack (roundsTo_add (canonical_unpack _) (canonical_unpack _) hx hy)

theorem reading_sub (hx : reading x = .number p) (hy : reading y = .number q) :
    reading (x - y) = nearest (p - q) :=
  reads_pack (roundsTo_sub (canonical_unpack _) (canonical_unpack _) hx hy)

theorem reading_mul (hx : reading x = .number p) (hy : reading y = .number q) :
    reading (x * y) = nearest (p * q) :=
  reads_pack (roundsTo_mul (canonical_unpack _) (canonical_unpack _) hx hy)

theorem reading_div (hx : reading x = .number p) (hy : reading y = .number q) (hq : q ≠ 0) :
    reading (x / y) = nearest (p / q) :=
  reads_pack (roundsTo_div hx hy hq)

/-- The magnitude of a double says the magnitude. -/
theorem reading_abs (h : reading x = .number q) : reading x.abs = .number |q| := by
  change reads (Float.Model.pack x.toModel.unpack.abs).unpack = _
  rcases unpack_of_reading h with ⟨s, hu, rfl⟩ | ⟨s, m, e, hm, hu, rfl, hc, he⟩
  · rw [hu, abs_zero]
    exact congrArg reads (unpack_pack_zero .positive)
  · rw [hu, abs_signed s (mul_nonneg (Nat.cast_nonneg m) (two_zpow_pos e).le)]
    exact congrArg reads (unpack_pack_finite hc he)

theorem nearest_of_lt (h : |rounded q| < limit) : nearest q = .number (rounded q) := if_pos h

theorem nearest_eq_number_iff : nearest q = .number p ↔ |rounded q| < limit ∧ rounded q = p := by
  unfold nearest
  split
  · rename_i h
    exact ⟨fun heq => ⟨h, Reading.number.inj heq⟩, fun heq => congrArg Reading.number heq.2⟩
  · rename_i h
    exact ⟨nofun, fun heq => absurd heq.1 h⟩

/-- A number on the grid that is not too large is its own nearest double. -/
theorem nearest_of_representable (h : Representable q) (hlt : |q| < limit) :
    nearest q = .number q := by
  rw [nearest_of_lt (by rwa [rounded_of_representable h]), rounded_of_representable h]

/-- What a double says is not too large. -/
theorem abs_lt_limit_of_reading (h : reading x = .number q) : |q| < limit := by
  rcases unpack_of_reading h with ⟨s, -, rfl⟩ | ⟨s, m, e, hm, -, rfl, hc, he⟩
  · rw [abs_zero]
    exact limit_pos
  · rw [abs_signed s (mul_nonneg (Nat.cast_nonneg m) (two_zpow_pos e).le)]
    exact abs_lt_limit hc.1 he

theorem two_zpow_lt_limit {e : ℤ} (h : e < 1024) : (2 : ℚ) ^ e < limit :=
  zpow_lt_zpow_right₀ (by norm_num) h

/-! ## 3. Constants and counts -/

/-- What a power of two says. -/
theorem reading_of_pack {x : Float} {e : ℤ} (hx : x.toModel = .pack (.finite .positive (2 ^ 52) e
    (by decide))) (hlow : -1074 ≤ e) (hhigh : e ≤ 971) : reading x = .number (2 ^ 52 * 2 ^ e) := by
  rw [reading, hx, unpack_pack_finite ⟨by decide, hlow, .inl (le_refl _)⟩ hhigh, reads, signed]
  norm_num

theorem unpack_zero : (0.0 : Float).toModel.unpack = .zero .positive := by
  have hpack : (0.0 : Float).toModel = .pack (.zero .positive) := by decide +kernel
  rw [hpack, unpack_pack_zero]

theorem unpack_neg_zero : (-0.0 : Float).toModel.unpack = .zero .negative := by
  have hpack : (-0.0 : Float).toModel = .pack (.zero .negative) := by decide +kernel
  rw [hpack, unpack_pack_zero]

theorem reading_zero : reading Arithmetic.zero = .number 0 := congrArg reads unpack_zero

/-- The zero that sums of standard scores start from. -/
theorem reading_neg_zero : reading (-0.0) = .number 0 := congrArg reads unpack_neg_zero

theorem reading_one : reading Arithmetic.one = .number 1 := by
  have hpower : reading Arithmetic.one = .number (2 ^ 52 * 2 ^ (-52 : ℤ)) :=
    reading_of_pack (by decide +kernel) (by norm_num) (by norm_num)
  rwa [show (2 : ℚ) ^ 52 * 2 ^ (-52 : ℤ) = 1 by norm_num] at hpower

theorem representable_zero : Representable 0 := ⟨0, 0, by norm_num, by norm_num, by norm_num⟩

theorem representable_natCast {n : ℕ} (h : n < 2 ^ 53) : Representable n :=
  ⟨n, 0, by rw [Nat.abs_cast]; exact_mod_cast h, by norm_num, by simp⟩

theorem reading_toFloat {n : ℕ} (h : n < 2 ^ 64) : reading n.toUInt64.toFloat = nearest n := by
  change reads (Float.Model.pack (.ofNat Format.binary64 n.toUInt64.toNat)).unpack = _
  rw [reads_pack (roundsTo_ofNat _), UInt64.toNat_ofNat_of_lt' h]

/-- **The value of a count is the count, rounded.** -/
theorem reading_ofCount (n : ℕ) : reading (Arithmetic.ofCount n) = nearest n := by
  change reading (Float.ofScientific n false 0) = _
  unfold Float.ofScientific
  split
  · -- a count with at most 53 digits is converted and multiplied by one
    rename_i h
    have hcount := reading_toFloat (h.1.trans (by norm_num : 2 ^ 53 < 2 ^ 64))
    have hlt : |(n : ℚ)| < limit := by
      rw [Nat.abs_cast]
      have hcast : (n : ℚ) < 2 ^ (53 : ℤ) := by exact_mod_cast h.1
      exact hcast.trans (two_zpow_lt_limit (by norm_num))
    rw [nearest_of_representable (representable_natCast h.1) hlt] at hcount
    change reading (n.toUInt64.toFloat * Arithmetic.one) = _
    rw [reading_mul hcount reading_one, mul_one]
  · rename_i h
    exact reads_pack (roundsTo_ofScientific (by omega))

/-! ## 4. Doubles that are no numbers -/

theorem reading_infinite {s : UnpackedFloat.Sign} (h : reading x = .infinite s) :
    x.toModel.unpack = .infinity s := by
  unfold reading at h
  cases hu : x.toModel.unpack with
  | infinity s' =>
    rw [hu] at h
    exact congrArg UnpackedFloat.infinity (Reading.infinite.inj h)
  | _ => rw [hu] at h; cases h

theorem unpack_of_absent (h : reading x = .absent) : x.toModel.unpack = .notANumber := by
  unfold reading at h
  cases hu : x.toModel.unpack with
  | notANumber => rfl
  | _ => rw [hu] at h; cases h

/-- Nothing comes out of a sum whose first summand says nothing. -/
theorem reading_add_of_absent (h : reading x = .absent) (y : Float) :
    reading (x + y) = .absent := by
  change reads (Float.Model.pack
    (.add Format.binary64 x.toModel.unpack y.toModel.unpack)).unpack = _
  rw [unpack_of_absent h]
  exact congrArg reads unpack_pack_notANumber

/-- Nothing comes out of a product whose first factor says nothing. -/
theorem reading_mul_of_absent (h : reading x = .absent) (y : Float) :
    reading (x * y) = .absent := by
  change reads (Float.Model.pack
    (.mul Format.binary64 x.toModel.unpack y.toModel.unpack)).unpack = _
  rw [unpack_of_absent h]
  exact congrArg reads unpack_pack_notANumber

/-- What is too large stays so, whatever number is added. -/
theorem reading_add_of_infinite {s : UnpackedFloat.Sign} (hx : reading x = .infinite s)
    (hy : reading y = .number q) : reading (x + y) = .infinite s := by
  change reads (Float.Model.pack
    (.add Format.binary64 x.toModel.unpack y.toModel.unpack)).unpack = _
  rw [reading_infinite hx]
  rcases unpack_of_reading hy with ⟨s', hv, -⟩ | ⟨s', m, e, hm, hv, -⟩ <;> rw [hv]
  · exact congrArg reads (unpack_pack_infinity s)
  · exact congrArg reads (unpack_pack_infinity s)

/-- What is too large stays so as well when it is added. -/
theorem reading_add_infinite {s : UnpackedFloat.Sign} (hx : reading x = .number p)
    (hy : reading y = .infinite s) : reading (x + y) = .infinite s := by
  change reads (Float.Model.pack
    (.add Format.binary64 x.toModel.unpack y.toModel.unpack)).unpack = _
  rw [reading_infinite hy]
  rcases unpack_of_reading hx with ⟨s', hu, -⟩ | ⟨s', m, e, hm, hu, -⟩ <;> rw [hu]
  · exact congrArg reads (unpack_pack_infinity s)
  · exact congrArg reads (unpack_pack_infinity s)

theorem reading_add_infinities {s : UnpackedFloat.Sign} (hx : reading x = .infinite s)
    (hy : reading y = .infinite s) : reading (x + y) = .infinite s := by
  change reads (Float.Model.pack
    (.add Format.binary64 x.toModel.unpack y.toModel.unpack)).unpack = _
  rw [reading_infinite hx, reading_infinite hy]
  cases s <;> exact congrArg reads (unpack_pack_infinity _)

/-- The distance from what is too large is too large. -/
theorem reading_sub_infinite {s : UnpackedFloat.Sign} (hx : reading x = .number p)
    (hy : reading y = .infinite s) : reading (x - y) = .infinite (-s) := by
  change reads (Float.Model.pack
    (.sub Format.binary64 x.toModel.unpack y.toModel.unpack)).unpack = _
  rw [reading_infinite hy]
  rcases unpack_of_reading hx with ⟨s', hu, -⟩ | ⟨s', m, e, hm, hu, -⟩ <;> rw [hu]
  · exact congrArg reads (unpack_pack_infinity (-s))
  · exact congrArg reads (unpack_pack_infinity (-s))

/-- The square of what is too large is too large. -/
theorem reading_mul_self_of_infinite {s : UnpackedFloat.Sign} (hx : reading x = .infinite s) :
    reading (x * x) = .infinite .positive := by
  change reads (Float.Model.pack
    (.mul Format.binary64 x.toModel.unpack x.toModel.unpack)).unpack = _
  rw [reading_infinite hx]
  cases s <;> exact congrArg reads (unpack_pack_infinity .positive)

/-- What is too large stays so when it is divided by a number above zero. -/
theorem reading_infinite_div {s : UnpackedFloat.Sign} (hx : reading x = .infinite s)
    (hy : reading y = .number q) (hq : 0 < q) : reading (x / y) = .infinite s := by
  change reads (Float.Model.pack
    (.div Format.binary64 x.toModel.unpack y.toModel.unpack)).unpack = _
  rw [reading_infinite hx]
  rcases unpack_of_reading hy with ⟨s', hv, rfl⟩ | ⟨s', m, e, hm, hv, rfl, -⟩ <;> rw [hv]
  · exact absurd hq (lt_irrefl 0)
  · cases s' with
    | negative =>
      have hpos : (0 : ℚ) < m * 2 ^ e := mul_pos (by exact_mod_cast hm) (two_zpow_pos e)
      rw [signed] at hq
      linarith
    | positive => cases s <;> exact congrArg reads (unpack_pack_infinity _)

/-- A number divided by what is too large is zero. -/
theorem reading_div_of_infinite {s : UnpackedFloat.Sign} (hx : reading x = .number p)
    (hy : reading y = .infinite s) : reading (x / y) = .number 0 := by
  change reads (Float.Model.pack
    (.div Format.binary64 x.toModel.unpack y.toModel.unpack)).unpack = _
  rw [reading_infinite hy]
  rcases unpack_of_reading hx with ⟨s', hu, -⟩ | ⟨s', m, e, hm, hu, -⟩ <;> rw [hu]
  · exact congrArg reads (unpack_pack_zero _)
  · exact congrArg reads (unpack_pack_zero _)

theorem number_of_pack {u : UnpackedFloat} {r : ℚ}
    (h : reads (Float.Model.pack u).unpack = .number r) : ∃ r', reads u = .number r' := by
  cases u with
  | zero s => exact ⟨_, rfl⟩
  | finite s m e hm => exact ⟨_, rfl⟩
  | infinity s =>
    rw [unpack_pack_infinity] at h
    cases h
  | notANumber =>
    rw [unpack_pack_notANumber] at h
    cases h

/-- No number comes out of a sum unless two go in. -/
theorem number_of_reading_add {r : ℚ} (h : reading (x + y) = .number r) :
    (∃ p, reading x = .number p) ∧ ∃ q, reading y = .number q := by
  obtain ⟨r', hsum⟩ := number_of_pack h
  unfold reading
  generalize x.toModel.unpack = u at hsum
  generalize y.toModel.unpack = v at hsum
  cases u with
  | notANumber => cases hsum
  | infinity s =>
    cases v with
    | infinity s' =>
      simp only [UnpackedFloat.add] at hsum
      split at hsum <;> cases hsum
    | _ => cases hsum
  | zero s =>
    cases v with
    | notANumber => cases hsum
    | infinity s' => cases hsum
    | _ => exact ⟨⟨_, rfl⟩, ⟨_, rfl⟩⟩
  | finite s m e hm =>
    cases v with
    | notANumber => cases hsum
    | infinity s' => cases hsum
    | _ => exact ⟨⟨_, rfl⟩, ⟨_, rfl⟩⟩

/-- No number comes out of a quotient unless the numerator is one. -/
theorem number_of_reading_div {r : ℚ} (h : reading (x / y) = .number r) :
    ∃ p, reading x = .number p := by
  obtain ⟨r', hquot⟩ := number_of_pack h
  unfold reading
  generalize x.toModel.unpack = u at hquot
  generalize y.toModel.unpack = v at hquot
  cases u with
  | notANumber => cases hquot
  | infinity s => cases v <;> cases hquot
  | zero s => exact ⟨_, rfl⟩
  | finite s m e hm => exact ⟨_, rfl⟩

/-! ## 5. Order -/

theorem lt_iff_unpack (x y : Float) : x < y ↔ x.toModel.unpack.lt y.toModel.unpack = true :=
  decide_eq_true_iff

theorem le_iff_unpack (x y : Float) : x ≤ y ↔ x.toModel.unpack.le y.toModel.unpack = true :=
  decide_eq_true_iff

/-- Numbers are compared by value. -/
theorem numLt_iff (hx : reading x = .number p) (hy : reading y = .number q) :
    Arithmetic.numLt x y = true ↔ p < q := by
  change decide (x < y) = true ↔ _
  rw [decide_eq_true_iff, lt_iff_unpack, UnpackedFloat.lt,
    compare_of_reads (canonical_unpack _) (canonical_unpack _) hx hy, ← compare_lt_iff_lt]
  simp

theorem numLe_iff (hx : reading x = .number p) (hy : reading y = .number q) :
    Arithmetic.numLe x y = true ↔ p ≤ q := by
  change decide (x ≤ y) = true ↔ _
  rw [decide_eq_true_iff, le_iff_unpack, UnpackedFloat.le,
    compare_of_reads (canonical_unpack _) (canonical_unpack _) hx hy, ← compare_le_iff_le]
  exact Ordering.isLE_iff_ne_gt

theorem numEq_iff (hx : reading x = .number p) (hy : reading y = .number q) :
    Arithmetic.numEq x y = true ↔ p = q := by
  change UnpackedFloat.beq x.toModel.unpack y.toModel.unpack = true ↔ _
  rw [UnpackedFloat.beq, compare_of_reads (canonical_unpack _) (canonical_unpack _) hx hy,
    ← compare_eq_iff_eq (a := p)]
  simp

/-- Above a number are the numbers that are greater, and what is too large. -/
theorem number_numLt_iff (hx : reading x = .number p) : Arithmetic.numLt x y = true ↔
    (∃ q, reading y = .number q ∧ p < q) ∨ reading y = .infinite .positive := by
  cases hy : reading y with
  | number q =>
    rw [numLt_iff hx hy]
    simp
  | infinite s =>
    change decide (x < y) = true ↔ _
    rw [decide_eq_true_iff, lt_iff_unpack, reading_infinite hy]
    rcases unpack_of_reading hx with ⟨s', hu, -⟩ | ⟨s', m, e, hm, hu, -⟩ <;> rw [hu] <;> cases s <;>
      simp [UnpackedFloat.lt, UnpackedFloat.compare]
  | absent =>
    change decide (x < y) = true ↔ _
    rw [decide_eq_true_iff, lt_iff_unpack, unpack_of_absent hy]
    rcases unpack_of_reading hx with ⟨s', hu, -⟩ | ⟨s', m, e, hm, hu, -⟩ <;> rw [hu] <;>
      simp [UnpackedFloat.lt, UnpackedFloat.compare]

/-- Equal to a number is what says the same number. -/
theorem numEq_number_iff (hy : reading y = .number q) :
    Arithmetic.numEq x y = true ↔ reading x = .number q := by
  cases hx : reading x with
  | number p =>
    rw [numEq_iff hx hy]
    simp
  | infinite s =>
    change UnpackedFloat.beq x.toModel.unpack y.toModel.unpack = true ↔ _
    rw [reading_infinite hx]
    rcases unpack_of_reading hy with ⟨s', hu, -⟩ | ⟨s', m, e, hm, hu, -⟩ <;> rw [hu] <;> cases s <;>
      simp [UnpackedFloat.beq, UnpackedFloat.compare]
  | absent =>
    change UnpackedFloat.beq x.toModel.unpack y.toModel.unpack = true ↔ _
    rw [unpack_of_absent hx]
    simp [UnpackedFloat.beq, UnpackedFloat.compare]

/-- What is above zero is a positive number or too large. -/
theorem zero_numLt_iff : Arithmetic.numLt Arithmetic.zero x = true ↔
    (∃ q, reading x = .number q ∧ 0 < q) ∨ reading x = .infinite .positive :=
  number_numLt_iff reading_zero

/-- **A quotient by what is above zero is a number exactly when its numerator is one and the quotient
is not too large.**  A denominator that is too large does no harm. -/
theorem exists_reading_div_iff (hy : Arithmetic.numLt Arithmetic.zero y = true) :
    (∃ r, reading (x / y) = .number r) ↔
      ∃ p, reading x = .number p ∧ ∀ q, reading y = .number q → |rounded (p / q)| < limit := by
  rcases zero_numLt_iff.mp hy with ⟨q, hq, hpos⟩ | hinf
  · constructor
    · rintro ⟨r, hr⟩
      obtain ⟨p, hp⟩ := number_of_reading_div hr
      refine ⟨p, hp, fun q' hq' => ?_⟩
      obtain rfl := Reading.number.inj (hq.symm.trans hq')
      rw [reading_div hp hq hpos.ne'] at hr
      exact (nearest_eq_number_iff.mp hr).1
    · rintro ⟨p, hp, hquot⟩
      rw [reading_div hp hq hpos.ne']
      exact ⟨_, nearest_of_lt (hquot q hq)⟩
  · constructor
    · rintro ⟨r, hr⟩
      obtain ⟨p, hp⟩ := number_of_reading_div hr
      exact ⟨p, hp, fun q hq => Reading.noConfusion (hinf.symm.trans hq)⟩
    · rintro ⟨p, hp, -⟩
      exact ⟨0, reading_div_of_infinite hp hinf⟩

/-- A quotient within a bound that is a power of two stays within it. -/
theorem exists_reading_div_le {k : ℕ} (hk : k ≤ 1023) (hx : reading x = .number p)
    (hy : reading y = .number q) (hq : 0 < q) (hle : |p| ≤ 2 ^ k * q) :
    ∃ r, reading (x / y) = .number r ∧ |r| ≤ 2 ^ k := by
  have hquot : |rounded (p / q)| ≤ 2 ^ k := by
    rw [abs_rounded, abs_div, abs_of_pos hq]
    exact (representable_two_pow k).rounded_le ((div_le_iff₀ hq).mpr hle)
  have hbound : (2 : ℚ) ^ k < limit := by
    rw [← zpow_natCast]
    exact two_zpow_lt_limit (by omega)
  exact ⟨_, by rw [reading_div hx hy hq.ne', nearest_of_lt (hquot.trans_lt hbound)], hquot⟩

/-- Taking the magnitude changes the sign, and the place of a magnitude is its stored bits. -/
theorem unpack_abs (hx : reading x = .number p) :
    x.abs.toModel.unpack = x.toModel.unpack.abs ∧ orderKey x.abs = key x.toModel.unpack := by
  have hkey : ∀ u : UnpackedFloat, (Float.Model.pack u).toBits.toNat < signBit →
      orderKey (.ofModel (.pack u)) = (Float.Model.pack u).toBits.toNat := fun u h => if_pos h
  change (Float.Model.pack x.toModel.unpack.abs).unpack = _ ∧
    orderKey (.ofModel (.pack x.toModel.unpack.abs)) = _
  rcases unpack_of_reading hx with ⟨s, hu, -⟩ | ⟨s, m, e, hm, hu, -, hc, he⟩ <;> rw [hu]
  · have hplace : orderKey (.ofModel (.pack (.zero .positive))) = 0 := by decide +kernel
    exact ⟨unpack_pack_zero .positive, hplace⟩
  · have hbits := toNat_pack_finite hc he
    refine ⟨unpack_pack_finite hc he, ?_⟩
    rw [UnpackedFloat.abs, hkey _ ?_, hbits]
    · rfl
    · rw [hbits, key, signBit]
      have := hc.1
      omega

/-- **Magnitudes are ordered alike by value and by place.** -/
theorem abs_lt_abs_iff (hx : reading x = .number p) (hy : reading y = .number q) :
    x.abs < y.abs ↔ orderKey x.abs < orderKey y.abs := by
  obtain ⟨hunpack, hplace⟩ := unpack_abs hx
  obtain ⟨hunpack', hplace'⟩ := unpack_abs hy
  rw [lt_iff_unpack, hunpack, hunpack', hplace, hplace', Int.ofNat_lt]
  rcases unpack_of_reading hx with ⟨s, hu, -⟩ | ⟨s, m, e, hm, hu, -, hc, -⟩ <;>
    rcases unpack_of_reading hy with ⟨s', hv, -⟩ | ⟨s', m', e', hm', hv, -, hc', -⟩ <;>
    rw [hu, hv]
  · exact iff_of_false Bool.false_ne_true (Nat.lt_irrefl 0)
  · exact iff_of_true rfl (Nat.add_pos_right _ hm')
  · exact iff_of_false Bool.false_ne_true (Nat.not_lt_zero _)
  · exact lt_iff_key_lt hc hc'

end PeerRatings
