/-
# The arithmetic of ratings

Sums, means and weighted averages of ratings are written once, over any type with the operations
of `Arithmetic`.  Two readings matter:

* **double precision** (`Float`, below), where every operation rounds and the order of a sum
  counts;
* **exact rationals** (`PeerRatings.Arithmetic.Exact`), where the algebra of the same definitions
  can be stated without rounding.

Both have a value that stands for "no rating", the *absent* value.  In double precision it is the
NaN; it compares with nothing, not even with itself.

No algebraic law is asked of the operations, since rounding has none of them.  The two laws that
are asked say that zero is an ordinary value: finite, and at most itself.
-/

namespace PeerRatings

/-- The operations on ratings.  Comparisons are the numeric ones: they answer `false` as soon as
one side is absent. -/
class Arithmetic (α : Type) extends Add α, Sub α, Mul α, Div α where
  /-- The number 0, from which sums start. -/
  zero : α
  /-- The number 1, the scale that leaves a value alone. -/
  one : α
  /-- The magnitude of a value. -/
  abs : α → α
  /-- The value of a count. -/
  ofCount : Nat → α
  /-- The value that stands for "no rating". -/
  absent : α
  /-- Whether a value is absent. -/
  isAbsent : α → Bool
  /-- Whether a value is a number of bounded size. -/
  isFinite : α → Bool
  /-- Numeric `=`. -/
  numEq : α → α → Bool
  /-- Numeric `<`. -/
  numLt : α → α → Bool
  /-- Numeric `≤`. -/
  numLe : α → α → Bool
  /-- The absent value is absent. -/
  isAbsent_absent : isAbsent absent = true
  /-- Zero is finite. -/
  isFinite_zero : isFinite zero = true
  /-- Zero is at most zero. -/
  numLe_zero : numLe zero zero = true

attribute [simp] Arithmetic.isAbsent_absent Arithmetic.isFinite_zero Arithmetic.numLe_zero

/-- Double precision.  The absent value is the NaN. -/
instance : Arithmetic Float where
  zero := 0.0
  one := 1.0
  abs := Float.abs
  ofCount := Float.ofNat
  absent := 0.0 / 0.0
  isAbsent := Float.isNaN
  isFinite := Float.isFinite
  numEq a b := a == b
  numLt a b := decide (a < b)
  numLe a b := decide (a ≤ b)
  isAbsent_absent := by decide +kernel
  isFinite_zero := by decide +kernel
  numLe_zero := by decide +kernel

end PeerRatings
