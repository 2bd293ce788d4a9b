/-
# Doubles as text

Where a message quotes a double, it quotes the shortest decimal that reads back, written out in
full: no exponent however large or small the number, no point behind a whole number, and at least
one digit in front of a point.  Zero keeps its sign.  The values that are no numbers are `NaN`,
`inf` and `-inf`.
-/
import PeerRatings.Arithmetic.TotalOrder
import PeerRatings.Decimal.Shortest

namespace PeerRatings.Decimal

/-! ## 1. Positional notation -/

/-- `count` zeros. -/
def zeros (count : Nat) : List Char := List.replicate count '0'

/-- Put a point in front of the last `places` digits, filling up with zeros on the left so that
one digit stays in front of the point. -/
def pointed (digits : List Char) (places : Nat) : List Char :=
  let filled := zeros (places + 1 - digits.length) ++ digits
  filled.take (filled.length - places) ++ '.' :: filled.drop (filled.length - places)

/-- A numeral in positional notation. -/
def positional (d : Numeral) : List Char :=
  let digits := Nat.toDigits 10 d.digits
  if d.place < 0 then pointed digits (-d.place).toNat
  else digits ++ zeros d.place.toNat

/-! ## 2. The text of a double -/

/-- The pattern of `+∞`, above that of every finite number. -/
def infinityPattern : Nat := 0x7ff0000000000000

/-- The text of a magnitude, given by the bit pattern below the sign bit. -/
def magnitudeText (pattern : Nat) : List Char :=
  if pattern = 0 then ['0']
  else if pattern < infinityPattern then positional (shortest (BinaryPoint.ofPattern pattern))
  else "inf".toList

/-- The text of a double: `-0.1`, `25`, `NaN`. -/
def text (x : Float) : String :=
  let bits := x.toBits.toNat
  if x.isNaN then "NaN"
  else if bits < signBit then String.ofList (magnitudeText bits)
  else String.ofList ('-' :: magnitudeText (bits - signBit))

/-! ## 3. Some texts -/

example : text 0.1 = "0.1" := by decide +kernel
example : text (-0.0) = "-0" := by decide +kernel
example : text (-1e21) = "-1000000000000000000000" := by decide +kernel
example : text (-1e-7) = "-0.0000001" := by decide +kernel
example : text (1.0 / 3.0) = "0.3333333333333333" := by decide +kernel
example : text (-1.0 / 0.0) = "-inf" := by decide +kernel

end PeerRatings.Decimal
