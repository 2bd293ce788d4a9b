/-
# The vector of a list of pairs

A vector is made from pairs by entering them one after the other, each in the place of an earlier
pair with its key.  Two other descriptions of what comes out are proved here.

* **By the list alone.**  At every key stands the value of the last pair that has the key
  (`IdMap.get?_ofList`).  A vector is determined by its look-ups, so this says everything: what a
  second list does to the vector of a first one, and that a vector is the vector of its entries.
* **By sorting.**  Sort the pairs by key, then go through them and write keys and values into two
  columns, where a pair whose key was just written takes the place of the value in front of it.
  The columns are those of the vector (`mergeRuns_sorted`).  This is where the sort has to be
  stable: it must not exchange pairs with equal keys, or another one would come last.

Nothing is asked of the values, so everything holds of bit patterns as it holds of numbers.
-/
import Mathlib.Data.List.Basic
import Mathlib.Data.List.Induction
import PeerRatings.RatingVector
import PeerRatings.Sorting

namespace PeerRatings

variable {α : Type}

/-! ## 1. The last value of a key -/

namespace IdMap

variable {key : Int} {pairs a b : List (Int × α)}

/-- The value of the last pair that has the key. -/
def lastOf? (key : Int) (pairs : List (Int × α)) : Option α :=
  (pairs.filter fun pair => pair.1 == key).getLast?.map Prod.snd

theorem lastOf?_append : lastOf? key (a ++ b) = (lastOf? key b).or (lastOf? key a) := by
  rw [lastOf?, List.filter_append, List.getLast?_append, lastOf?, lastOf?]
  cases (b.filter fun pair => pair.1 == key).getLast? <;> rfl

theorem lastOf?_singleton (pair : Int × α) :
    lastOf? key [pair] = if key = pair.1 then some pair.2 else none := by
  by_cases h : key = pair.1 <;> simp [lastOf?, h, Ne.symm]

/-- What comes last is on the list. -/
theorem mem_of_lastOf? {x : α} (h : lastOf? key pairs = some x) : (key, x) ∈ pairs := by
  obtain ⟨pair, hlast, rfl⟩ := Option.map_eq_some_iff.mp h
  obtain ⟨hmem, hkey⟩ := List.mem_filter.mp (List.mem_of_getLast? hlast)
  rwa [← beq_iff_eq.mp hkey]

/-- Some pair comes last where any pair has the key. -/
theorem isSome_lastOf?_iff : (lastOf? key pairs).isSome ↔ ∃ x, (key, x) ∈ pairs := by
  constructor
  · intro h
    obtain ⟨x, hx⟩ := Option.isSome_iff_exists.mp h
    exact ⟨x, mem_of_lastOf? hx⟩
  · rintro ⟨x, hx⟩
    rw [lastOf?, Option.isSome_map, Option.isSome_iff_ne_none, Ne, List.getLast?_eq_none_iff]
    exact List.ne_nil_of_mem (List.mem_filter.mpr ⟨hx, beq_self_eq_true key⟩)

/-! ## 2. Entering pairs -/

theorem ofList_concat (pairs : List (Int × α)) (pair : Int × α) :
    ofList (pairs ++ [pair]) = (ofList pairs).insert pair.1 pair.2 :=
  insertAll_append ..

/-- **The last pair counts at every key.** -/
theorem get?_ofList (pairs : List (Int × α)) (key : Int) :
    (ofList pairs).get? key = lastOf? key pairs := by
  induction pairs using List.reverseRecOn with
  | nil => rfl
  | append_singleton rest pair ih =>
    rw [ofList_concat, get?_insert, ih, lastOf?_append, lastOf?_singleton]
    by_cases h : key = pair.1 <;> simp [h]

/-- The keys are those on the list. -/
theorem mem_keys_ofList_iff : key ∈ (ofList pairs).keys ↔ ∃ x, (key, x) ∈ pairs := by
  rw [mem_keys_iff, get?_ofList, isSome_lastOf?_iff]

/-- **Pairs behind others are laid over them.** -/
theorem get?_ofList_append (a b : List (Int × α)) (key : Int) :
    (ofList (a ++ b)).get? key = ((ofList b).get? key).or ((ofList a).get? key) := by
  rw [get?_ofList, get?_ofList, get?_ofList, lastOf?_append]

/-- **A list of the entries of a map makes the map**, in whatever order they are listed and however
often: no entry contradicts another. -/
theorem ofList_of_mem_iff {m : IdMap α} (h : ∀ pair, pair ∈ pairs ↔ pair ∈ m.entries) :
    ofList pairs = m := by
  refine ext_get? fun key => Option.ext fun x => ?_
  rw [get?_ofList]
  constructor
  · intro hx
    exact get?_eq_some_iff.mpr ((h _).mp (mem_of_lastOf? hx))
  · intro hx
    have hlisted : (key, x) ∈ pairs := (h _).mpr (get?_eq_some_iff.mp hx)
    obtain ⟨y, hy⟩ := Option.isSome_iff_exists.mp (isSome_lastOf?_iff.mpr ⟨x, hlisted⟩)
    have hread : m.get? key = some y := get?_eq_some_iff.mpr ((h _).mp (mem_of_lastOf? hy))
    rw [hy, ← hread, hx]

/-! ## 3. Entering at the end -/

/-- What is larger than the keys in front is entered behind them. -/
theorem insertEntry_append {front : List (Int × α)} (h : ∀ e ∈ front, e.1 < key) (x : α)
    (back : List (Int × α)) : insertEntry key x (front ++ back) = front ++ insertEntry key x back := by
  induction front with
  | nil => rfl
  | cons e front ih =>
    have hlt : e.1 < key := h e List.mem_cons_self
    rw [List.cons_append, insertEntry, if_neg (by omega), if_neg (by omega),
      ih fun e' he' => h e' (List.mem_cons_of_mem _ he'), List.cons_append]

end IdMap

/-! ## 4. Sorting and merging -/

namespace RatingVector

/-- Whether a pair may stand in front of another in the order of keys. -/
abbrev keyNotAfter : Int × α → Int × α → Bool := Sorting.byKey fun pair => (pair.1, 0)

theorem keyNotAfter_iff {a b : Int × α} : keyNotAfter a b = true ↔ a.1 ≤ b.1 := by
  rw [Sorting.byKey_iff]
  omega

/-- Write a pair behind two columns.  If its key was written last, its value takes the place of the
last value. -/
def writePair (columns : List Int × List α) (pair : Int × α) : List Int × List α :=
  if columns.1.getLast? = some pair.1 then
    (columns.1, columns.2.set (columns.2.length - 1) pair.2)
  else (columns.1 ++ [pair.1], columns.2 ++ [pair.2])

/-- The columns of a list of pairs, written from left to right. -/
def mergeRuns (pairs : List (Int × α)) : List Int × List α := pairs.foldl writePair ([], [])

/-- Writing behind the columns of a vector enters the pair, unless its key is too small. -/
theorem writePair_columns (v : RatingVector α) (pair : Int × α)
    (h : ∀ e ∈ v.entries, e.1 ≤ pair.1) :
    writePair (v.keys, v.values) pair =
      ((v.insert pair.1 pair.2).keys, (v.insert pair.1 pair.2).values) := by
  obtain ⟨entries, hasc⟩ := v
  change writePair (entries.map Prod.fst, entries.map Prod.snd) pair =
    ((IdMap.insertEntry pair.1 pair.2 entries).map Prod.fst,
      (IdMap.insertEntry pair.1 pair.2 entries).map Prod.snd)
  rcases entries.eq_nil_or_concat' with rfl | ⟨front, last, rfl⟩
  · rfl
  · have hle : last.1 ≤ pair.1 := h last (by simp)
    have hfront : ∀ e ∈ front, e.1 < pair.1 := by
      intro e he
      have hlt : e.1 < last.1 := (List.pairwise_append.mp hasc).2.2 e he last List.mem_cons_self
      exact Int.lt_of_lt_of_le hlt hle
    rw [IdMap.insertEntry_append hfront]
    by_cases hsame : last.1 = pair.1
    · simp [writePair, IdMap.insertEntry, hsame]
    · have hnot : ¬ pair.1 < last.1 := by omega
      simp [writePair, IdMap.insertEntry, hsame, Ne.symm hsame, hnot]

/-- **Merging sorted pairs makes their vector.** -/
theorem mergeRuns_eq {pairs : List (Int × α)} (h : pairs.Pairwise fun a b => a.1 ≤ b.1) :
    mergeRuns pairs = ((ofPairs pairs).keys, (ofPairs pairs).values) := by
  induction pairs using List.reverseRecOn with
  | nil => rfl
  | append_singleton rest pair ih =>
    obtain ⟨hrest, -, hlast⟩ := List.pairwise_append.mp h
    have hbelow : ∀ e ∈ (ofPairs rest).entries, e.1 ≤ pair.1 := by
      intro e he
      have hkey : e.1 ∈ (ofPairs rest).keys := List.mem_map_of_mem he
      obtain ⟨x, hx⟩ := IdMap.mem_keys_ofList_iff.mp hkey
      exact hlast _ hx pair List.mem_cons_self
    have hentered : ofPairs (rest ++ [pair]) = (ofPairs rest).insert pair.1 pair.2 :=
      IdMap.ofList_concat rest pair
    rw [mergeRuns, List.foldl_append, ← mergeRuns, ih hrest, hentered]
    exact writePair_columns _ pair hbelow

/-- A stable sort by key does not change which pair comes last. -/
theorem lastOf?_sorted (pairs : List (Int × α)) (key : Int) :
    IdMap.lastOf? key (Sorting.sorted keyNotAfter pairs) = IdMap.lastOf? key pairs := by
  rw [IdMap.lastOf?, Sorting.filter_sorted Sorting.byKey_trans Sorting.byKey_total, IdMap.lastOf?]
  intro a b ha hb
  exact keyNotAfter_iff.mpr (Int.le_of_eq ((beq_iff_eq.mp ha).trans (beq_iff_eq.mp hb).symm))

/-- **Sorting by key and merging makes the vector of the pairs.** -/
theorem mergeRuns_sorted (pairs : List (Int × α)) :
    mergeRuns (Sorting.sorted keyNotAfter pairs) =
      ((ofPairs pairs).keys, (ofPairs pairs).values) := by
  have hsorted : (Sorting.sorted keyNotAfter pairs).Pairwise fun a b => a.1 ≤ b.1 :=
    (Sorting.pairwise_sorted Sorting.byKey_trans Sorting.byKey_total pairs).imp keyNotAfter_iff.mp
  have hsame : ofPairs (Sorting.sorted keyNotAfter pairs) = ofPairs pairs :=
    IdMap.ext_get? fun key => by
      rw [ofPairs, ofPairs, IdMap.get?_ofList, IdMap.get?_ofList, lastOf?_sorted]
  rw [mergeRuns_eq hsorted, hsame]

/-! ## 5. What a vector of pairs holds -/

/-- **In a vector made from pairs the last pair counts at every key.**

* The keys are the keys on the list, ascending, each with the value of the last pair that has it.
* The vector of two lists, one behind the other, reads as the vector of the second one where that
  has a key, and else as the vector of the first one.
* The vector of a vector's entries is that vector.
* The columns of the vector are what comes out of sorting the pairs stably by key and merging runs
  of equal keys into the last of their values. -/
theorem ofPairs_last_counts (pairs : List (Int × α)) :
    (ofPairs pairs).keys.Pairwise (· < ·) ∧
    (∀ key, key ∈ (ofPairs pairs).keys ↔ ∃ x, (key, x) ∈ pairs) ∧
    (∀ key, (ofPairs pairs).get? key = IdMap.lastOf? key pairs) ∧
    (∀ more key, (ofPairs (pairs ++ more)).get? key =
      ((ofPairs more).get? key).or ((ofPairs pairs).get? key)) ∧
    (∀ v : RatingVector α, ofPairs v.entries = v) ∧
    mergeRuns (Sorting.sorted keyNotAfter pairs) =
      ((ofPairs pairs).keys, (ofPairs pairs).values) :=
  ⟨IdMap.keys_ascending _, fun _ => IdMap.mem_keys_ofList_iff, IdMap.get?_ofList pairs,
    IdMap.get?_ofList_append pairs, fun _ => IdMap.ofList_of_mem_iff fun _ => Iff.rfl,
    mergeRuns_sorted pairs⟩

end RatingVector

end PeerRatings
