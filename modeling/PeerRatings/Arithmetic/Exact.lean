/-
# Exact rating arithmetic

The rationals with one extra point for "no rating".  Read over `Exact`, the definitions of this
library are the textbook formulas: sums do not depend on their order, and a scale that is applied
can be taken back.  The algebra of means and votes is stated here, and the double-precision
reading differs from it by rounding, overflow and nothing else.

The extra point absorbs: an operation with an absent operand is absent.  A quotient by zero is
absent too, since no number answers it.
-/
import PeerRatings.Arithmetic.Basic

namespace PeerRatings

/-- A rational number, or no rating at all. -/
inductive Exact where
  /-- No rating. -/
  | absent
  /-- The rating `q`. -/
  | value (q : Rat)
  deriving DecidableEq

namespace Exact

/-! ## 1. Operations -/

/-- Combine two ratings; without one of them there is no result. -/
def lift₂ (f : Rat → Rat → Rat) : Exact → Exact → Exact
  | value p, value q => value (f p q)
  | _, _ => absent

/-- Ask a question of two ratings; without one of them the answer is no. -/
def test₂ (f : Rat → Rat → Bool) : Exact → Exact → Bool
  | value p, value q => f p q
  | _, _ => false

/-- Division, with no result for a zero divisor. -/
def div : Exact → Exact → Exact
  | value p, value q => if q = 0 then absent else value (p / q)
  | _, _ => absent

/-- The magnitude of a rating. -/
def abs : Exact → Exact
  | value q => value q.abs
  | absent => absent

/-- Whether there is no rating. -/
def isAbsent : Exact → Bool
  | absent => true
  | value _ => false

/-- Exact arithmetic.  Every rating there is counts as finite. -/
instance : Arithmetic Exact where
  add := lift₂ (· + ·)
  sub := lift₂ (· - ·)
  mul := lift₂ (· * ·)
  div := div
  zero := value 0
  one := value 1
  abs := abs
  ofCount n := value n
  absent := absent
  isAbsent := isAbsent
  isFinite a := !a.isAbsent
  numEq := test₂ fun p q => decide (p = q)
  numLt := test₂ fun p q => decide (p < q)
  numLe := test₂ fun p q => decide (p ≤ q)
  isAbsent_absent := rfl
  isFinite_zero := rfl
  numLe_zero := by decide

/-! ## 2. The operations on numbers -/

@[simp] theorem value_add (p q : Rat) : value p + value q = value (p + q) := rfl

@[simp] theorem value_sub (p q : Rat) : value p - value q = value (p - q) := rfl

@[simp] theorem value_mul (p q : Rat) : value p * value q = value (p * q) := rfl

theorem value_div {q : Rat} (p : Rat) (hq : q ≠ 0) : value p / value q = value (p / q) :=
  if_neg hq

@[simp] theorem value_div_zero (p : Rat) : value p / value 0 = absent := rfl

end Exact

end PeerRatings
