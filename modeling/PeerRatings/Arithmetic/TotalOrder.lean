/-
# A total order on doubles

Rankings and neighbor lists are sorted by doubles, and the numeric comparison is no help there:
it does not order the NaNs, and it does not separate the two zeros.  The order used is the one on
bit patterns: patterns with the sign bit by descending magnitude, then those without it by ascending
magnitude.  So `-0.0` comes before `0.0`.  The magnitude of a NaN lies above that of an infinity, so
a NaN comes last, or first if it has the sign bit.

The type of doubles has one NaN only.  That is enough for what is computed here, but not for what a
caller brings along: in the order of patterns no two NaNs are alike.  So a score is kept as its
pattern (`Score`), and read as a double where its value is asked for.

`patternKey` turns a pattern into the integer that carries the order.  Patterns with the same key
are the same pattern (`patternKey_injective`), which is what makes "equal scores" mean "equal bit
for bit".
-/

namespace PeerRatings

/-! ## 1. The order of patterns -/

/-- The highest of 64 bits.  A pattern below it is that of a positive number. -/
def signBit : Nat := 0x8000000000000000

/-- The place of a 64-bit pattern in the order: a pattern without the sign bit is its own place,
one with the sign bit comes below zero, the larger the magnitude the lower. -/
def patternKey (bits : Nat) : Int :=
  if bits < signBit then bits else (signBit : Int) - 1 - bits

theorem patternKey_injective {a b : Nat} (h : patternKey a = patternKey b) : a = b := by
  unfold patternKey at h
  by_cases ha : a < signBit
  · by_cases hb : b < signBit
    · rw [if_pos ha, if_pos hb] at h
      omega
    · rw [if_pos ha, if_neg hb] at h
      omega
  · by_cases hb : b < signBit
    · rw [if_neg ha, if_pos hb] at h
      omega
    · rw [if_neg ha, if_neg hb] at h
      omega

/-! ## 2. Doubles -/

/-- The place of a double in the total order of doubles. -/
def orderKey (x : Float) : Int := patternKey x.toBits.toNat

/-- **Doubles with the same place are the same double.** -/
theorem orderKey_injective {x y : Float} (h : orderKey x = orderKey y) : x = y := by
  have hbits : x.toBits = y.toBits := UInt64.toNat_inj.1 (patternKey_injective h)
  obtain ⟨⟨xb, _⟩⟩ := x
  obtain ⟨⟨yb, _⟩⟩ := y
  have : xb = yb := hbits
  subst this
  rfl

/-! ## 3. Scores -/

/-- A double bit for bit.  NaNs that differ in a bit are different scores. -/
structure Score where
  bits : UInt64
  deriving DecidableEq

namespace Score

/-- The score that stands for a double. -/
def ofFloat (x : Float) : Score := ⟨x.toBits⟩

/-- The double that a score stands for. -/
def value (x : Score) : Float := .ofBits x.bits

/-- The place of a score in the total order of doubles. -/
def key (x : Score) : Int := patternKey x.bits.toNat

/-- **Scores with the same place are equal bit for bit.** -/
theorem key_injective {x y : Score} (h : x.key = y.key) : x = y := by
  cases x
  cases y
  exact congrArg Score.mk (UInt64.toNat_inj.1 (patternKey_injective h))

/-- NaNs with the sign bit, `-∞`, the zeros, `+∞`, and NaNs without it, each in its place. -/
example : [⟨0xffffffffffffffff⟩, ⟨0xfff8000000000000⟩, ofFloat (-1.0 / 0.0), ofFloat (-0.0),
    ofFloat 0.0, ofFloat (1.0 / 0.0), ⟨0x7ff8000000000000⟩, ⟨0x7fffffffffffffff⟩].Pairwise
      fun x y : Score => x.key < y.key := by
  decide +kernel

/-- A score for a double has the place of the double. -/
theorem key_ofFloat (x : Float) : (ofFloat x).key = orderKey x := rfl

theorem ofFloat_injective {x y : Float} (h : ofFloat x = ofFloat y) : x = y :=
  orderKey_injective (congrArg key h)

end Score

end PeerRatings
