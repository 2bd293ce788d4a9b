/-
# Normalizing in place

The ratings of a neighbor are normalized where they are stored.  All values of the open vector go
by, absent ones among them; a rescaling is chosen from what went by; then every value is overwritten
by what it becomes.  The ratings of the user who asks go another way: they are frozen, a
transformation is made from them, and it is applied later or not at all.  Scores are comparable only
if **the two ways agree, bit for bit** (`Method.normalize_as_transformed`).

Two things could drive them apart, and neither does.

* A running sum and count pass over absent values where the other way leaves them out beforehand.
  That is the same sum and the same count (`RatingVector.tally_eq`).
* The loop that overwrites the values could read a value that it has written.  It reads every value
  once, before it writes there (`getElem?_overwriteFrom`), and the rescaling is chosen before the
  first write.

So a transformation depends on the values that are there and on their order, and on nothing else.
-/
import Mathlib.Data.List.Induction
import PeerRatings.Normalization.Method
import PeerRatings.Proofs.Arithmetic.Readings

namespace PeerRatings

variable {σ α : Type}

/-! ## 1. Choosing from a column in which values are absent -/

namespace RatingVector

variable [Arithmetic α]

/-- The values of a column that are not absent. -/
def present (values : List α) : List α := values.filter fun r => !Arithmetic.isAbsent r

theorem known_eq_present (v : RatingVector α) : v.known = present v.values := rfl

/-- The sum and the number of the values that are not absent, kept while all values go by. -/
def tally (values : List α) : α × Nat :=
  values.foldl (fun t r => if Arithmetic.isAbsent r then t else (t.1 + r, t.2 + 1))
    (Arithmetic.zero, 0)

/-- **Passing absent values over is leaving them out.** -/
theorem tally_eq (values : List α) :
    tally values = (sum (present values), (present values).length) := by
  induction values using List.reverseRecOn with
  | nil => rfl
  | append_singleton values r ih =>
    have happend : present (values ++ [r]) =
        present values ++ if Arithmetic.isAbsent r then [] else [r] := by
      rw [present, List.filter_append, ← present]
      cases hr : Arithmetic.isAbsent r <;> simp [hr]
    rw [tally, List.foldl_concat, ← tally, ih, happend]
    cases hr : Arithmetic.isAbsent r with
    | true => simp
    | false => simp [sum]

end RatingVector

namespace MeanCentering

variable [Arithmetic α]

/-- The shift, from the sum and the number of the values that went by. -/
def offsetOfTally (m : MeanCentering α) (tally : α × Nat) : α :=
  let denominator := Arithmetic.ofCount tally.2 + m.damping
  if Arithmetic.numEq denominator Arithmetic.zero then m.globalMean
  else (tally.1 + m.damping * m.globalMean) / denominator

theorem offsetOfTally_tally (m : MeanCentering α) (values : List α) :
    m.offsetOfTally (RatingVector.tally values) = m.offset (RatingVector.present values) := by
  rw [RatingVector.tally_eq]
  rfl

end MeanCentering

namespace Method

/-- The rescaling that is chosen from a whole column.  Standard scores go over the values twice and
collect those that are not absent first. -/
def fitColumn (m : Method) (values : List Float) : Rescaling Float :=
  match m with
  | identity => .identity
  | meanCentering m => .shiftScale (m.offsetOfTally (RatingVector.tally values)) Arithmetic.one
  | meanVariance => MeanVariance.fit (RatingVector.present values)

/-- **The choice is made from the values that are not absent.** -/
theorem fitColumn_eq (m : Method) (values : List Float) :
    m.fitColumn values = m.fit (RatingVector.present values) := by
  cases m with
  | identity => rfl
  | meanCentering m => rw [fitColumn, m.offsetOfTally_tally, fit, MeanCentering.fit]
  | meanVariance => rw [fitColumn, fit]

end Method

/-! ## 2. Overwriting a column -/

/-- Overwrite the values from place `i` on, one after the other, each by what `f` makes of the value
that is found there. -/
def overwriteFrom (f : α → α) (i : Nat) (column : Array α) : Array α :=
  if h : i < column.size then overwriteFrom f (i + 1) (column.set i (f column[i])) else column
termination_by column.size - i
decreasing_by
  rw [Array.size_set]
  omega

/-- **What the loop leaves at a place is made of what stood there before it.**  Places in front of
the first one are left alone. -/
theorem getElem?_overwriteFrom (f : α → α) (i : Nat) (column : Array α) (j : Nat) :
    (overwriteFrom f i column)[j]? = if i ≤ j then column[j]?.map f else column[j]? := by
  fun_induction overwriteFrom f i column with
  | case1 i column h ih =>
    -- the rest of the loop does not come back to place `i`
    rw [ih, Array.getElem?_set]
    rcases Nat.lt_trichotomy i j with hij | rfl | hji
    · rw [if_pos (Nat.succ_le_of_lt hij), if_pos hij.le, if_neg hij.ne]
    · rw [if_neg (by omega), if_pos rfl, if_pos (le_refl i), Array.getElem?_eq_getElem h,
        Option.map_some]
    · rw [if_neg (by omega), if_neg hji.ne', if_neg (by omega)]
  | case2 i column h =>
    split
    · rw [Array.getElem?_eq_none (by omega), Option.map_none]
    · rfl

/-- From the first place on, the loop changes every value once. -/
theorem overwriteFrom_zero (f : α → α) (column : Array α) :
    overwriteFrom f 0 column = column.map f := by
  refine Array.ext_getElem? fun j => ?_
  rw [getElem?_overwriteFrom, if_pos (Nat.zero_le j), Array.getElem?_map]

namespace Method

/-- Normalize an open vector where it is stored: choose from the values as they are listed with
their keys, then overwrite them.  The keys are not touched. -/
def normalizeColumn (m : Method) (keys : List Int) (column : Array Float) : Array Float :=
  overwriteFrom (m.fitColumn ((keys.zip column.toList).map Prod.snd)).forward 0 column

/-! ## 3. The two ways agree -/

/-- What comes out of the loop is the column of the vector with the transformation applied. -/
theorem normalizeColumn_eq (m : Method) (v : RatingVector Float) :
    m.normalizeColumn v.keys v.values.toArray =
      ((m.fit v.known).apply v).values.toArray := by
  have hlen : v.values.length ≤ v.keys.length := by rw [IdMap.length_values, IdMap.length_keys]
  rw [normalizeColumn, List.toList_toArray, List.map_snd_zip hlen, fitColumn_eq,
    ← RatingVector.known_eq_present, overwriteFrom_zero, List.map_toArray]
  simp [Rescaling.apply, IdMap.mapEntries, IdMap.values]

end Method

/-- What is absent stays absent, whatever the offset and the scale are. -/
theorem Rescaling.isAbsent_forward (t : Rescaling Float) {x : Float}
    (h : Arithmetic.isAbsent x = true) : Arithmetic.isAbsent (t.forward x) = true := by
  cases t with
  | identity => exact h
  | shiftScale offset scale =>
    have hshifted : reading (x - offset) = .absent := reading_sub_of_absent (isAbsent_iff.mp h) offset
    exact isAbsent_iff.mpr (reading_div_of_absent hshifted scale)

/-- **Normalizing in place is making a transformation and applying it.**  For every method, user and
open vector, normalizing succeeds and leaves what the transformation makes of the vector, bit for
bit, which is what choosing from all values and then overwriting them one after the other leaves.

The keys stay, and what is absent stays absent.  Every vector with the same known values in the same
order gets the same transformation, whatever its keys, its absent values and its user are; and the
transformation acts on every entry by itself, in both directions. -/
theorem Method.normalize_as_transformed (m : Method) (user : Int) (v : RatingVector Float) (s : σ) :
    ∃ (t : Rescaling Float) (v' : RatingVector Float),
      m.normalizer.normalize user v s = ((.ok (), v'), s) ∧
      (m.normalizer.transformation user v).runFrom s = (.ok t, s) ∧
      v' = Transformation.apply t v ∧
      v'.values.toArray = m.normalizeColumn v.keys v.values.toArray ∧ v'.keys = v.keys ∧
      (∀ key x, v.get? key = some x → Arithmetic.isAbsent x = true →
        ∃ y, v'.get? key = some y ∧ Arithmetic.isAbsent y = true) ∧
      (∀ (other : Int) (w : RatingVector Float) (s' : σ), w.known = v.known →
        (m.normalizer.transformation other w).runFrom s' = (.ok t, s')) ∧
      (∀ w : RatingVector Float, (Transformation.apply t w).entries =
        w.entries.map fun e => (e.1, t.forward e.2)) ∧
      ∀ w : RatingVector Float, (Transformation.unapply t w).entries =
        w.entries.map fun e => (e.1, t.backward e.2) := by
  rw [m.normalizer_eq_fitted]
  refine ⟨m.fit v.known, (m.fit v.known).apply v, rfl, rfl, rfl, (m.normalizeColumn_eq v).symm,
    IdMap.keys_mapEntries .., ?_, ?_, fun _ => rfl, fun _ => rfl⟩
  · intro key x hx habsent
    refine ⟨(m.fit v.known).forward x, ?_, Rescaling.isAbsent_forward _ habsent⟩
    rw [Rescaling.get?_apply, hx, Option.map_some]
  · intro other w s' hknown
    rw [Normalizer.transformation_fitted, hknown]

end PeerRatings
