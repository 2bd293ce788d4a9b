/-
# The shortest decimal that reads back

A double is a point on a binary grid, and reading a decimal rounds it to the nearest such point.
So the decimals that read back as a given double fill an interval around it: half a step up, half
a step down, with a narrower lower half where the double is the first of its binade.  The ends
belong to the interval exactly when the significand is even, since a tie goes to the even
neighbor.

The shortest decimal is found on **decimal grids**, coarsest first.  If any point of a grid reads
back, one of the two grid points next to the double does, so two candidates per grid are enough:
the first grid with a hit gives the fewest digits, and of two hits on it the nearer one is taken,
the upper one when both are equally near.

All of it is exact arithmetic on natural numbers.  Lengths are counted in quarters of the binary
step, so that the halves and the narrower quarter are whole.
-/

namespace PeerRatings.Decimal

/-! ## 1. The double as a point on its binary grid -/

/-- A positive double: `significand · 2 ^ exponent`. -/
structure BinaryPoint where
  /-- The significand, below `2 ^ 53`. -/
  significand : Nat
  /-- The power of two that is one step of the grid. -/
  exponent : Int
  /-- Whether the next double below is only half a step away. -/
  narrowBelow : Bool
  deriving DecidableEq

/-- The leading bit of a significand, `2 ^ 52`, which a pattern leaves out. -/
def leadingBit : Nat := 0x10000000000000

/-- The point that a 63-bit magnitude pattern denotes, for a pattern of a finite double. -/
def BinaryPoint.ofPattern (pattern : Nat) : BinaryPoint :=
  let fraction : Nat := pattern % leadingBit
  let biased : Nat := pattern / leadingBit
  if biased = 0 then ⟨fraction, -1074, false⟩
  else ⟨leadingBit + fraction, (biased : Int) - 1075, fraction == 0 && decide (1 < biased)⟩

/-! ## 2. A decimal grid laid over it -/

/-- A decimal grid and the binary grid of a point, in a common unit: a decimal step is
`decimalStep` units long and a quarter of a binary step is `quarterStep` units long. -/
structure Overlay where
  decimalStep : Nat
  quarterStep : Nat
  deriving DecidableEq

/-- The part of `b ^ e` that is a whole number; `b ^ e` is this over `wholePower b (-e)`. -/
def wholePower (b : Nat) (e : Int) : Nat := Nat.pow b e.toNat

/-- The grid of the multiples of `10 ^ place` over the binary grid of `p`. -/
def Overlay.of (p : BinaryPoint) (place : Int) : Overlay where
  decimalStep := wholePower 10 place * wholePower 2 (2 - p.exponent)
  quarterStep := wholePower 2 (p.exponent - 2) * wholePower 10 (-place)

/-- Whether the `n`-th point of the decimal grid reads back as `p`. -/
def Overlay.readsBack (o : Overlay) (p : BinaryPoint) (n : Nat) : Bool :=
  let low := (4 * p.significand - if p.narrowBelow then 1 else 2) * o.quarterStep
  let high := (4 * p.significand + 2) * o.quarterStep
  let here := n * o.decimalStep
  if p.significand % 2 = 0 then decide (low ≤ here ∧ here ≤ high)
  else decide (low < here ∧ here < high)

/-- The last point of the decimal grid that is not above `p`. -/
def Overlay.below (o : Overlay) (p : BinaryPoint) : Nat :=
  4 * p.significand * o.quarterStep / o.decimalStep

/-- The point of the decimal grid next to `p` that is nearer to it, the upper one in a tie. -/
def Overlay.nearest (o : Overlay) (p : BinaryPoint) : Nat :=
  let n := o.below p
  let here := 4 * p.significand * o.quarterStep
  if here - n * o.decimalStep < (n + 1) * o.decimalStep - here then n else n + 1

/-- The candidate of this grid, if one of the two points next to `p` reads back. -/
def Overlay.candidate? (o : Overlay) (p : BinaryPoint) : Option Nat :=
  let n := o.below p
  match o.readsBack p n, o.readsBack p (n + 1) with
  | true, true => some (o.nearest p)
  | true, false => some n
  | false, true => some (n + 1)
  | false, false => none

/-! ## 3. The search -/

/-- A positive decimal: `digits · 10 ^ place`. -/
structure Numeral where
  digits : Nat
  place : Int
  deriving DecidableEq

/-- No two doubles are closer than `10 ^ finestPlace`, so that grid holds a decimal for each. -/
def finestPlace : Int := -324

/-- Search the grids from `10 ^ (finestPlace + n)` down to the finest one. -/
def search (p : BinaryPoint) : Nat → Numeral
  | 0 => ⟨(Overlay.of p finestPlace).nearest p, finestPlace⟩
  | n + 1 =>
    let place := finestPlace + (n + 1 : Nat)
    match (Overlay.of p place).candidate? p with
    | some digits => ⟨digits, place⟩
    | none => search p n

/-- The decimal with the fewest digits that reads back as `p`, and among those the nearest.
No double reaches `10 ^ 309`, where the search starts. -/
def shortest (p : BinaryPoint) : Numeral := search p 633

/-! ## 4. What the search keeps to -/

/-- A candidate reads back. -/
theorem Overlay.readsBack_of_candidate? {o : Overlay} {p : BinaryPoint} {n : Nat}
    (h : o.candidate? p = some n) : o.readsBack p n = true := by
  simp only [candidate?] at h
  split at h
  · rename_i hlow hhigh
    obtain rfl := Option.some.inj h
    simp only [nearest]
    split
    · exact hlow
    · exact hhigh
  · rename_i hlow _
    obtain rfl := Option.some.inj h
    exact hlow
  · rename_i hhigh
    obtain rfl := Option.some.inj h
    exact hhigh
  · simp at h

/-- Above the finest grid, what the search finds reads back on its own grid. -/
theorem readsBack_search (p : BinaryPoint) (n : Nat) :
    (search p n).place = finestPlace ∨
      (Overlay.of p (search p n).place).readsBack p (search p n).digits = true := by
  induction n with
  | zero => exact .inl rfl
  | succ n ih =>
    simp only [search]
    split
    · rename_i digits h
      exact .inr (Overlay.readsBack_of_candidate? h)
    · exact ih

end PeerRatings.Decimal
