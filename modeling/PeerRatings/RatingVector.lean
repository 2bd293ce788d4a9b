/-
# Rating vectors

A rating vector holds one value per key.  Seen from a user the keys are items, seen from an item
they are users.  A key without a value of its own reads as **absent**, never as zero, and a value
may itself be absent, so "no rating" and "no prediction" look the same to a reader.

Vectors are made in three ways: from pairs in any order, from two columns, or blank over given
keys.  The first always succeeds.  The other two take the keys as they stand and refuse keys that
do not ascend strictly.  The check compares neighboring keys only, which is enough
(`isAscending_iff`).

The key sequence of a vector never changes.  What changes are values: one at a time (`set`), or all
of them (`IdMap.mapEntries`, `IdMap.mapAccum`).
-/
import PeerRatings.Arithmetic.Basic
import PeerRatings.Error
import PeerRatings.IdMap.Basic

namespace PeerRatings

/-- Values of ratings, keyed by item or by user. -/
abbrev RatingVector (α : Type) := IdMap α

/-! ## 1. Keys in order -/

/-- Whether each key is less than the next one. -/
def isAscending : List Int → Bool
  | a :: b :: rest => decide (a < b) && isAscending (b :: rest)
  | _ => true

/-- **Comparing neighbors is enough.**  If each key is less than the next, it is less than all
later ones. -/
theorem isAscending_iff {keys : List Int} : isAscending keys ↔ keys.Pairwise (· < ·) := by
  induction keys with
  | nil => simp [isAscending]
  | cons a rest ih =>
    cases rest with
    | nil => simp [isAscending]
    | cons b rest =>
      rw [isAscending, Bool.and_eq_true, decide_eq_true_iff, ih]
      constructor
      · rintro ⟨hab, hrest⟩
        refine List.pairwise_cons.2 ⟨fun c hc => ?_, hrest⟩
        rcases List.mem_cons.1 hc with rfl | hc
        · exact hab
        · exact Int.lt_trans hab ((List.pairwise_cons.1 hrest).1 c hc)
      · intro h
        obtain ⟨hall, hrest⟩ := List.pairwise_cons.1 h
        exact ⟨hall b List.mem_cons_self, hrest⟩

namespace RatingVector

variable {α : Type}

/-! ## 2. Making vectors -/

/-- The vector of a list of pairs in any order.  When a key repeats, the later pair counts. -/
def ofPairs (pairs : List (Int × α)) : RatingVector α := IdMap.ofList pairs

theorem ascending_zip {keys : List Int} {values : List α} (hlen : keys.length = values.length)
    (h : isAscending keys) : AscendingKeys (keys.zip values) := by
  have hkeys : ((keys.zip values).map Prod.fst).Pairwise (· < ·) := by
    rw [List.map_fst_zip (Nat.le_of_eq hlen)]
    exact isAscending_iff.1 h
  exact List.pairwise_map.1 hkeys

/-- The vector of a column of keys and a column of values, taken as they stand.  Columns of
different lengths are refused before their keys are looked at. -/
def ofColumns? (keys : List Int) (values : List α) : Except RequestError (RatingVector α) :=
  if hlen : keys.length = values.length then
    if h : isAscending keys then .ok ⟨keys.zip values, ascending_zip hlen h⟩
    else .error .unsortedKeys
  else .error (.mismatchedLengths keys.length values.length)

/-- The vector over `keys` in which every value is absent. -/
def blank? [Arithmetic α] (keys : List Int) : Except RequestError (RatingVector α) :=
  ofColumns? keys (List.replicate keys.length Arithmetic.absent)

/-! ## 3. Reading -/

/-- The value at `key`; absent when the vector does not have the key. -/
def get [Arithmetic α] (v : RatingVector α) (key : Int) : α :=
  (v.get? key).getD Arithmetic.absent

/-- The values that are not absent, in the order of their keys. -/
def known [Arithmetic α] (v : RatingVector α) : List α :=
  v.values.filter fun r => !Arithmetic.isAbsent r

/-- Numeric agreement: the same keys, and at each key numerically equal values.  A vector with an
absent value does not agree with anything, and the two zeros agree. -/
def agrees [Arithmetic α] (v w : RatingVector α) : Bool :=
  v.keys == w.keys && (v.values.zip w.values).all fun p => Arithmetic.numEq p.1 p.2

/-! ## 4. Writing -/

/-- Write `x` at `key` and report the value it replaces.  A key that the vector does not have is
left out: nothing is written and nothing reported. -/
def set (v : RatingVector α) (key : Int) (x : α) : Option α × RatingVector α :=
  (v.get? key, v.overwrite key x)

/-! ## 5. Sums and means -/

/-- The sum of ratings, from left to right, starting from zero. -/
def sum [Arithmetic α] (ratings : List α) : α := ratings.foldl (· + ·) Arithmetic.zero

/-- The mean of the values that are not absent; absent when there is none. -/
def mean [Arithmetic α] (v : RatingVector α) : α :=
  if v.known.isEmpty then Arithmetic.absent
  else sum v.known / Arithmetic.ofCount v.known.length

/-! ## 6. The written form -/

/-- A vector as it is written out: its two columns, with a gap for every value that is not
finite. -/
structure Columns (α : Type) where
  keys : List Int
  values : List (Option α)
  deriving DecidableEq

/-- A value as it is written out. -/
def written [Arithmetic α] (x : α) : Option α := if Arithmetic.isFinite x then some x else none

/-- The written form of a vector. -/
def columns [Arithmetic α] (v : RatingVector α) : Columns α := ⟨v.keys, v.values.map written⟩

/-! ## 7. The view -/

theorem get_eq [Arithmetic α] {v : RatingVector α} {key : Int} {x : α}
    (h : v.get? key = some x) : v.get key = x := by
  simp [get, h]

theorem get_of_not_mem [Arithmetic α] {v : RatingVector α} {key : Int} (h : key ∉ v.keys) :
    v.get key = Arithmetic.absent := by
  simp [get, IdMap.get?_of_not_mem h]

/-- Writing a value changes what is read at its key, if the vector has it, and nothing else. -/
theorem get?_set (v : RatingVector α) (key k : Int) (x : α) :
    (v.set key x).2.get? k = if k = key then (v.get? key).map fun _ => x else v.get? k :=
  IdMap.get?_overwrite v key k x

/-- Writing a value leaves the keys alone. -/
@[simp] theorem keys_set (v : RatingVector α) (key : Int) (x : α) :
    (v.set key x).2.keys = v.keys :=
  IdMap.keys_overwrite v key x

end RatingVector

end PeerRatings
