/-
# Operations on what doubles say

A reading leaves out one thing about a double, the sign of a zero.  A sum can do without it: **what
a sum says follows from what its summands say** (`reading_add_eq`), be they numbers, too large or
absent.  So a sum of doubles says the sum of what they say (`reading_foldl_add`), and the two zeros
are as good as each other to start it from.

A quotient needs the sign of its divisor where that is zero, and nowhere else: above zero, what it
says follows from the readings as well (`reading_div_eq`).

Numeric equality is equality of readings, with the one exception that what is absent is equal to
nothing (`numEq_iff_reading`).
-/
import PeerRatings.Proofs.Arithmetic.Doubles

namespace PeerRatings

open Float.Model Rounding Unpacked

variable {x y : Float}

/-! ## 1. Operands that are absent -/

/-- Nothing comes out of a sum whose second summand says nothing. -/
theorem reading_add_absent (x : Float) (h : reading y = .absent) : reading (x + y) = .absent := by
  change reads (Float.Model.pack
    (.add Format.binary64 x.toModel.unpack y.toModel.unpack)).unpack = _
  rw [unpack_of_absent h]
  cases x.toModel.unpack <;> exact congrArg reads unpack_pack_notANumber

/-- Nothing comes out of a difference from what says nothing. -/
theorem reading_sub_of_absent (h : reading x = .absent) (y : Float) :
    reading (x - y) = .absent := by
  change reads (Float.Model.pack
    (.sub Format.binary64 x.toModel.unpack y.toModel.unpack)).unpack = _
  rw [unpack_of_absent h]
  exact congrArg reads unpack_pack_notANumber

/-- Nothing comes out of a quotient whose numerator says nothing. -/
theorem reading_div_of_absent (h : reading x = .absent) (y : Float) :
    reading (x / y) = .absent := by
  change reads (Float.Model.pack
    (.div Format.binary64 x.toModel.unpack y.toModel.unpack)).unpack = _
  rw [unpack_of_absent h]
  exact congrArg reads unpack_pack_notANumber

/-! ## 2. Sums -/

/-- Two infinities add up to themselves if they agree, and to nothing if they are opposite. -/
theorem reading_add_of_infinities {s s' : UnpackedFloat.Sign} (hx : reading x = .infinite s)
    (hy : reading y = .infinite s') :
    reading (x + y) = if s == s' then .infinite s else .absent := by
  change reads (Float.Model.pack
    (.add Format.binary64 x.toModel.unpack y.toModel.unpack)).unpack = _
  rw [reading_infinite hx, reading_infinite hy]
  cases s <;> cases s'
  · exact congrArg reads (unpack_pack_infinity .negative)
  · exact congrArg reads unpack_pack_notANumber
  · exact congrArg reads unpack_pack_notANumber
  · exact congrArg reads (unpack_pack_infinity .positive)

/-- What a sum says, by what its summands say. -/
def Unpacked.Reading.add : Reading → Reading → Reading
  | .absent, _ => .absent
  | _, .absent => .absent
  | .number p, .number q => nearest (p + q)
  | .number _, .infinite s => .infinite s
  | .infinite s, .number _ => .infinite s
  | .infinite s, .infinite s' => if s == s' then .infinite s else .absent

/-- **What a sum says follows from what its summands say.** -/
theorem reading_add_eq (x y : Float) : reading (x + y) = (reading x).add (reading y) := by
  cases hx : reading x with
  | absent => exact reading_add_of_absent hx y
  | number p =>
    cases hy : reading y with
    | absent => exact reading_add_absent x hy
    | number q => exact reading_add hx hy
    | infinite s => exact reading_add_infinite hx hy
  | infinite s =>
    cases hy : reading y with
    | absent => exact reading_add_absent x hy
    | number q => exact reading_add_of_infinite hx hy
    | infinite s' => exact reading_add_of_infinities hx hy

/-- **A sum of doubles says the sum of what they say**, summand by summand. -/
theorem reading_foldl_add (xs : List Float) (start : Float) :
    reading (xs.foldl (· + ·) start) = (xs.map reading).foldl Reading.add (reading start) := by
  induction xs generalizing start with
  | nil => rfl
  | cons x xs ih => rw [List.foldl_cons, ih, reading_add_eq, List.map_cons, List.foldl_cons]

/-- Adding a zero changes nothing of what a double says. -/
theorem reading_add_zero (x : Float) (hy : reading y = .number 0) :
    reading (x + y) = reading x := by
  cases hx : reading x with
  | absent => exact reading_add_of_absent hx y
  | number p =>
    rw [reading_add hx hy, add_zero,
      nearest_of_representable (representable_of_reading hx) (abs_lt_limit_of_reading hx)]
  | infinite s => exact reading_add_of_infinite hx hy

/-! ## 3. Quotients by what is above zero -/

/-- A quotient of two infinities says nothing. -/
theorem reading_div_of_infinities {s s' : UnpackedFloat.Sign} (hx : reading x = .infinite s)
    (hy : reading y = .infinite s') : reading (x / y) = .absent := by
  change reads (Float.Model.pack
    (.div Format.binary64 x.toModel.unpack y.toModel.unpack)).unpack = _
  rw [reading_infinite hx, reading_infinite hy]
  exact congrArg reads unpack_pack_notANumber

/-- What a quotient by a divisor above zero says, by what its operands say. -/
def Unpacked.Reading.over : Reading → Reading → Reading
  | .absent, _ => .absent
  | _, .absent => .absent
  | .number p, .number q => nearest (p / q)
  | .number _, .infinite _ => .number 0
  | .infinite s, .number _ => .infinite s
  | .infinite _, .infinite _ => .absent

/-- **What a quotient by a divisor above zero says follows from what its operands say.** -/
theorem reading_div_eq (x : Float) (hy : Arithmetic.numLt Arithmetic.zero y = true) :
    reading (x / y) = (reading x).over (reading y) := by
  rcases zero_numLt_iff.mp hy with ⟨q, hq, hpos⟩ | hinf
  · rw [hq]
    cases hx : reading x with
    | absent => exact reading_div_of_absent hx y
    | number p => exact reading_div hx hq hpos.ne'
    | infinite s => exact reading_infinite_div hx hq hpos
  · rw [hinf]
    cases hx : reading x with
    | absent => exact reading_div_of_absent hx y
    | number p => exact reading_div_of_infinite hx hinf
    | infinite s => exact reading_div_of_infinities hx hinf

/-! ## 4. Numeric equality -/

/-- Equal to an infinity is that infinity. -/
theorem numEq_infinite_iff {s : UnpackedFloat.Sign} (hy : reading y = .infinite s) :
    Arithmetic.numEq x y = true ↔ reading x = .infinite s := by
  change UnpackedFloat.beq x.toModel.unpack y.toModel.unpack = true ↔ reads x.toModel.unpack = _
  rw [reading_infinite hy]
  cases x.toModel.unpack with
  | infinity s' =>
    cases s' <;> cases s
    · exact iff_of_true rfl rfl
    · exact iff_of_false nofun nofun
    · exact iff_of_false nofun nofun
    · exact iff_of_true rfl rfl
  | _ => cases s <;> simp [UnpackedFloat.beq, UnpackedFloat.compare, reads]

/-- **Numerically equal are doubles that say the same**, unless they say nothing. -/
theorem numEq_iff_reading :
    Arithmetic.numEq x y = true ↔ reading x = reading y ∧ reading y ≠ .absent := by
  cases hy : reading y with
  | number q => simpa using numEq_number_iff hy
  | infinite s => simpa using numEq_infinite_iff hy
  | absent =>
    change UnpackedFloat.beq x.toModel.unpack y.toModel.unpack = true ↔ _
    rw [unpack_of_absent hy]
    cases x.toModel.unpack <;> simp [UnpackedFloat.beq, UnpackedFloat.compare]

end PeerRatings
