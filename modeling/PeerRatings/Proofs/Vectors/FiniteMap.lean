/-
# A vector is a finite map in two columns

A rating vector is kept as a column of ascending keys and a column of values, and a key is found by
halving the column of keys.  This file says that the two columns and the search stand for a map:
what is read, written and visited is what the list of entries says, **for every vector that any
sequence of operations can reach**, in both of its states.

That each operation keeps the keys ascending and the columns equally long is part of its type.  So
nothing has to be carried along a sequence of operations, and "every vector that can be reached" is
every vector: each of them can be made from its own columns (`made_columns`).  What does have to be
shown of a sequence is that it never changes the keys (`keys_of_evolves`).

The search is `bisect`.  It is right on ascending keys only, between any two bounds
(`bisect_eq_some_iff`), and agrees there with the look-up that the other modules reason with.
-/
import Mathlib.Data.List.Zip
import Mathlib.Logic.Relation
import PeerRatings.RatingVector

namespace PeerRatings

universe u w

/-! ## 1. Halving -/

/-- The place of `key` among `keys`, looked for at the places from `lo` up to but not including
`hi`, by comparing with the key in the middle. -/
def bisect (keys : List Int) (key : Int) (lo hi : Nat) : Option Nat :=
  if lo < hi then
    let mid := lo + (hi - lo) / 2
    match keys[mid]? with
    | none => none
    | some k =>
      if k = key then some mid
      else if k < key then bisect keys key (mid + 1) hi
      else bisect keys key lo mid
  else none
termination_by hi - lo

section Ascending

variable {keys : List Int} (h : keys.Pairwise (· < ·))
include h

/-- Along ascending keys the lesser key stands first. -/
theorem place_lt_iff {i j : Nat} {a b : Int} (hi : keys[i]? = some a) (hj : keys[j]? = some b) :
    i < j ↔ a < b := by
  obtain ⟨hilt, rfl⟩ := List.getElem?_eq_some_iff.mp hi
  obtain ⟨hjlt, rfl⟩ := List.getElem?_eq_some_iff.mp hj
  rw [List.pairwise_iff_getElem] at h
  constructor
  · intro hij
    exact h i j hilt hjlt hij
  · intro hab
    rcases Nat.lt_trichotomy i j with hij | rfl | hji
    · exact hij
    · exact absurd hab (Int.lt_irrefl _)
    · exact absurd (h j i hjlt hilt hji) (Int.lt_asymm hab)

/-- A key stands at one place. -/
theorem place_unique {i j : Nat} {a : Int} (hi : keys[i]? = some a) (hj : keys[j]? = some a) :
    i = j := by
  rcases Nat.lt_trichotomy i j with hij | heq | hji
  · exact absurd ((place_lt_iff h hi hj).mp hij) (Int.lt_irrefl _)
  · exact heq
  · exact absurd ((place_lt_iff h hj hi).mp hji) (Int.lt_irrefl _)

/-- **Halving finds a key exactly where it stands.** -/
theorem bisect_eq_some_iff {key : Int} {lo hi i : Nat} (hhi : hi ≤ keys.length) :
    bisect keys key lo hi = some i ↔ lo ≤ i ∧ i < hi ∧ keys[i]? = some key := by
  fun_induction bisect keys key lo hi with
  | case1 lo hi hlt mid hmid =>
    -- the middle is a place
    exact absurd (List.getElem?_eq_none_iff.mp hmid) (by omega)
  | case2 lo hi hlt mid hmid =>
    rw [Option.some.injEq]
    constructor
    · rintro rfl
      exact ⟨by omega, by omega, hmid⟩
    · rintro ⟨-, -, hi⟩
      exact place_unique h hmid hi
  | case3 lo hi hlt mid k hmid hne hk ih =>
    -- the key is larger than the one in the middle, so it stands behind it
    rw [ih hhi]
    constructor
    · rintro ⟨hlo, hrest⟩
      exact ⟨by omega, hrest⟩
    · rintro ⟨-, hi, hkey⟩
      exact ⟨(place_lt_iff h hmid hkey).mpr hk, hi, hkey⟩
  | case4 lo hi hlt mid k hmid hne hk ih =>
    -- it is smaller, so it stands in front
    rw [ih (by omega)]
    constructor
    · rintro ⟨hlo, hi, hkey⟩
      exact ⟨hlo, by omega, hkey⟩
    · rintro ⟨hlo, -, hkey⟩
      exact ⟨hlo, (place_lt_iff h hkey hmid).mpr (by omega), hkey⟩
  | case5 lo hi hlt =>
    constructor
    · intro hnone
      exact absurd hnone (by simp)
    · rintro ⟨hlo, hi, -⟩
      omega

end Ascending

/-! ## 2. Visiting every value -/

namespace IdMap

variable {β : Type u} {σ : Type w}

/-- One visit of a pass over the values: the key, the value found and the value left. -/
structure Visit (β : Type u) where
  key : Int
  found : β
  left : β

/-- A change of values that makes a note of every visit. -/
def noting (f : σ → Int → β → σ × β) (s : σ × List (Visit β)) (key : Int) (b : β) :
    (σ × List (Visit β)) × β :=
  (((f s.1 key b).1, s.2 ++ [⟨key, b, (f s.1 key b).2⟩]), (f s.1 key b).2)

theorem mapAccumEntries_noting (f : σ → Int → β → σ × β) (s : σ) (notes : List (Visit β))
    (entries : List (Int × β)) :
    ∃ visits, mapAccumEntries (noting f) (s, notes) entries =
        (((mapAccumEntries f s entries).1, notes ++ visits), (mapAccumEntries f s entries).2) ∧
      visits.map (fun visit => (visit.key, visit.found)) = entries ∧
      visits.map (fun visit => (visit.key, visit.left)) = (mapAccumEntries f s entries).2 := by
  induction entries generalizing s notes with
  | nil => exact ⟨[], by simp [mapAccumEntries], rfl, rfl⟩
  | cons e rest ih =>
    obtain ⟨visits, hrun, hfound, hleft⟩ :=
      ih (f s e.1 e.2).1 (notes ++ [⟨e.1, e.2, (f s e.1 e.2).2⟩])
    refine ⟨⟨e.1, e.2, (f s e.1 e.2).2⟩ :: visits, ?_, ?_, ?_⟩
    · rw [mapAccumEntries, noting, hrun, List.append_assoc]
      rfl
    · rw [List.map_cons, hfound]
    · rw [List.map_cons, hleft, mapAccumEntries]

/-- **Every entry is visited once, keys ascending.**  Making a note of the visits changes nothing
of the pass.  What the visits find are the entries before it, and what they leave those after
it. -/
theorem mapAccum_noting (f : σ → Int → β → σ × β) (s : σ) (m : IdMap β) :
    ∃ visits, m.mapAccum (noting f) (s, []) =
        (((m.mapAccum f s).1, visits), (m.mapAccum f s).2) ∧
      visits.map (fun visit => (visit.key, visit.found)) = m.entries ∧
      visits.map (fun visit => (visit.key, visit.left)) = (m.mapAccum f s).2.entries := by
  obtain ⟨visits, hrun, hfound, hleft⟩ := mapAccumEntries_noting f s [] m.entries
  refine ⟨visits, ?_, hfound, hleft⟩
  simp [mapAccum, hrun]

theorem mapAccumEntries_unit (f : Int → β → β) (entries : List (Int × β)) :
    (mapAccumEntries (fun (_ : Unit) key b => ((), f key b)) () entries).2 =
      entries.map fun e => (e.1, f e.1 e.2) := by
  induction entries with
  | nil => rfl
  | cons e rest ih => rw [mapAccumEntries, ih, List.map_cons]

/-- A change of every value is a pass that passes nothing along. -/
theorem mapEntries_eq_mapAccum (f : Int → β → β) (m : IdMap β) :
    m.mapEntries f = (m.mapAccum (fun (_ : Unit) key b => ((), f key b)) ()).2 :=
  ext_get? fun key => congrArg (find? key) (mapAccumEntries_unit f m.entries).symm

end IdMap

/-! ## 3. Two columns -/

namespace RatingVector

variable {α : Type}

theorem entries_eq_zip (v : RatingVector α) : v.entries = v.keys.zip v.values :=
  List.zip_of_prod rfl rfl

/-- An entry stands at a place exactly if its key and its value stand there. -/
theorem getElem?_entries_iff {v : RatingVector α} {i : Nat} {key : Int} {x : α} :
    v.entries[i]? = some (key, x) ↔ v.keys[i]? = some key ∧ v.values[i]? = some x := by
  rw [v.entries_eq_zip, List.getElem?_zip_eq_some]

/-- The place of a key, found by halving the column of keys. -/
def place? (v : RatingVector α) (key : Int) : Option Nat := bisect v.keys key 0 v.keys.length

theorem place?_eq_some_iff {v : RatingVector α} {key : Int} {i : Nat} :
    v.place? key = some i ↔ v.keys[i]? = some key := by
  rw [place?, bisect_eq_some_iff v.keys_ascending (Nat.le_refl _)]
  constructor
  · rintro ⟨-, -, h⟩
    exact h
  · intro h
    exact ⟨Nat.zero_le _, (List.getElem?_eq_some_iff.mp h).1, h⟩

theorem isSome_place?_iff {v : RatingVector α} {key : Int} :
    (v.place? key).isSome ↔ key ∈ v.keys := by
  simp only [Option.isSome_iff_exists, place?_eq_some_iff, List.mem_iff_getElem?]

/-- **What is found at the place of a key is its value.** -/
theorem get?_eq_bind (v : RatingVector α) (key : Int) :
    v.get? key = (v.place? key).bind fun i => v.values[i]? := by
  refine Option.ext fun x => ?_
  rw [IdMap.get?_eq_some_iff, List.mem_iff_getElem?, Option.bind_eq_some_iff]
  simp only [getElem?_entries_iff, place?_eq_some_iff]

/-- A value that is written goes to the place of its key, in the column of values. -/
theorem values_set {v : RatingVector α} {key : Int} {i : Nat} (x : α)
    (h : v.keys[i]? = some key) : (v.set key x).2.values = v.values.set i x := by
  have hlen : (v.set key x).2.values.length = (v.values.set i x).length := by
    simp [set, IdMap.overwrite, IdMap.mapEntries, IdMap.values]
  refine List.ext_getElem hlen fun j _ hj => ?_
  have hj' : j < v.entries.length := by simpa [IdMap.values] using hj
  have hplace : v.entries[j].1 = key ↔ i = j := by
    have hkey : v.keys[j]? = some v.entries[j].1 := by
      rw [IdMap.keys, List.getElem?_map, List.getElem?_eq_getElem hj']
      rfl
    constructor
    · rintro rfl
      exact place_unique v.keys_ascending h hkey
    · rintro rfl
      exact Option.some.inj (hkey.symm.trans h)
  calc (v.set key x).2.values[j]
      = if v.entries[j].1 = key then x else v.entries[j].2 := by
        simp [set, IdMap.overwrite, IdMap.mapEntries, IdMap.values]
    _ = if i = j then x else v.entries[j].2 := by simp only [hplace]
    _ = (v.values.set i x)[j] := by
        rw [List.getElem_set]
        simp [IdMap.values]

/-- A key that the vector does not have changes nothing. -/
theorem set_of_not_mem {v : RatingVector α} {key : Int} (x : α) (h : key ∉ v.keys) :
    v.set key x = (none, v) := by
  have hnone : v.get? key = none := IdMap.get?_of_not_mem h
  refine Prod.ext hnone (IdMap.ext_get? ?_)
  intro k
  rw [get?_set]
  split
  · rename_i hk
    rw [hk, hnone]
    rfl
  · rfl

/-! ## 4. Every vector that can be reached -/

/-- Whether the values of a vector can be written. -/
inductive Access where
  | frozen
  | writable
  deriving DecidableEq

/-- The vectors that can be made, each in the state in which it comes. -/
inductive Made [Arithmetic α] : Access → RatingVector α → Prop where
  | empty : Made .frozen .empty
  | ofPairs (pairs : List (Int × α)) : Made .frozen (RatingVector.ofPairs pairs)
  | ofColumns {keys : List Int} {values : List α} {v : RatingVector α} :
      ofColumns? keys values = .ok v → Made .frozen v
  | blank {keys : List Int} {v : RatingVector α} : blank? keys = .ok v → Made .writable v

/-- One operation on a vector. -/
inductive Operation : Access × RatingVector α → Access × RatingVector α → Prop where
  | mutableCopy (v : RatingVector α) : Operation (.frozen, v) (.writable, v)
  | set (v : RatingVector α) (key : Int) (x : α) :
      Operation (.writable, v) (.writable, (v.set key x).2)
  | rewrite {σ : Type} (f : σ → Int → α → σ × α) (s : σ) (v : RatingVector α) :
      Operation (.writable, v) (.writable, (v.mapAccum f s).2)
  | freeze (v : RatingVector α) : Operation (.writable, v) (.frozen, v)

/-- Any number of operations, one after the other. -/
abbrev Evolves : Access × RatingVector α → Access × RatingVector α → Prop :=
  Relation.ReflTransGen Operation

/-- The vectors that are made, or come from one that is made by operations. -/
def Reached [Arithmetic α] (access : Access) (v : RatingVector α) : Prop :=
  ∃ origin, Made origin.1 origin.2 ∧ Evolves origin (access, v)

theorem keys_of_operation {s t : Access × RatingVector α} (h : Operation s t) :
    t.2.keys = s.2.keys := by
  cases h with
  | mutableCopy v => rfl
  | set v key x => exact v.keys_set key x
  | rewrite f s v => exact v.keys_mapAccum f s
  | freeze v => rfl

/-- **No operation changes the keys**, and no sequence of operations does. -/
theorem keys_of_evolves {s t : Access × RatingVector α} (h : Evolves s t) :
    t.2.keys = s.2.keys := by
  induction h with
  | refl => rfl
  | tail _ hstep ih => exact (keys_of_operation hstep).trans ih

/-- Every vector can be made from its own columns. -/
theorem ofColumns?_columns (v : RatingVector α) : ofColumns? v.keys v.values = .ok v := by
  have hlen : v.keys.length = v.values.length := by rw [IdMap.length_keys, IdMap.length_values]
  have hkeys : isAscending v.keys := isAscending_iff.mpr v.keys_ascending
  rw [ofColumns?, dif_pos hlen, dif_pos hkeys]
  refine congrArg Except.ok (IdMap.ext_get? fun key => ?_)
  exact congrArg (IdMap.find? key) v.entries_eq_zip.symm

/-- **Every vector can be reached, in both states.** -/
theorem reached [Arithmetic α] (v : RatingVector α) (access : Access) : Reached access v := by
  have hmade : Made .frozen v := .ofColumns (ofColumns?_columns v)
  cases access with
  | frozen => exact ⟨(.frozen, v), hmade, .refl⟩
  | writable => exact ⟨(.frozen, v), hmade, .single (.mutableCopy v)⟩

/-! ## 5. Columns stand for a map -/

/-- **Two columns and halving stand for the map that the entries list**, in every vector that can be
reached:

* keys ascend strictly, there are as many values, and the entries pair them;
* halving finds a key at its place and no other key anywhere, what is read is the value at that
  place, and absent without a place;
* writing at a key reports the value before and changes the value at its place; writing at any other
  key reports nothing and changes nothing;
* a pass over the values visits every entry once, keys ascending, and leaves what it was told to
  (a change of every value by a function is such a pass);
* whatever operations follow, the keys stay as they are. -/
theorem columns_act_as_map [Arithmetic α] (v : RatingVector α) :
    (∀ access, Reached access v) ∧
    v.keys.Pairwise (· < ·) ∧ v.values.length = v.keys.length ∧ v.entries = v.keys.zip v.values ∧
    (∀ key i, v.place? key = some i ↔ v.keys[i]? = some key) ∧
    (∀ key, v.get key = ((v.place? key).bind fun i => v.values[i]?).getD Arithmetic.absent) ∧
    (∀ key x, (key, x) ∈ v.entries → v.get key = x) ∧
    (∀ key, key ∉ v.keys → v.get key = Arithmetic.absent) ∧
    (∀ key, v.contains key = (v.place? key).isSome ∧ (v.contains key ↔ key ∈ v.keys)) ∧
    (∀ key i x, v.keys[i]? = some key →
      (v.set key x).1 = some (v.get key) ∧ (v.set key x).2.keys = v.keys ∧
        (v.set key x).2.values = v.values.set i x) ∧
    (∀ key x, key ∉ v.keys → v.set key x = (none, v)) ∧
    (∀ (σ : Type) (f : σ → Int → α → σ × α) (s : σ), ∃ visits,
      v.mapAccum (IdMap.noting f) (s, []) = (((v.mapAccum f s).1, visits), (v.mapAccum f s).2) ∧
      visits.map (fun visit => (visit.key, visit.found)) = v.entries ∧
      visits.map (fun visit => (visit.key, visit.left)) = (v.mapAccum f s).2.entries) ∧
    (∀ f : Int → α → α,
      v.mapEntries f = (v.mapAccum (fun (_ : Unit) key x => ((), f key x)) ()).2) ∧
    ∀ access t, Evolves (access, v) t → t.2.keys = v.keys := by
  refine ⟨v.reached, v.keys_ascending, ?_, v.entries_eq_zip, ?_, ?_, ?_, ?_, ?_, ?_, ?_, ?_,
    v.mapEntries_eq_mapAccum, ?_⟩
  · rw [IdMap.length_values, IdMap.length_keys]
  · intro key i
    exact place?_eq_some_iff
  · intro key
    rw [get, get?_eq_bind]
  · intro key x he
    exact get_eq (IdMap.get?_eq_some_iff.mpr he)
  · intro key hkey
    exact get_of_not_mem hkey
  · intro key
    have hmem : v.contains key ↔ key ∈ v.keys := IdMap.contains_iff_mem_keys
    exact ⟨Bool.eq_iff_iff.mpr (hmem.trans isSome_place?_iff.symm), hmem⟩
  · intro key i x hplace
    refine ⟨?_, v.keys_set key x, values_set x hplace⟩
    obtain ⟨old, hold⟩ := Option.isSome_iff_exists.mp
      (IdMap.mem_keys_iff.mp (List.mem_of_getElem? hplace))
    rw [get_eq hold]
    exact hold
  · intro key x hkey
    exact set_of_not_mem x hkey
  · intro σ f s
    exact v.mapAccum_noting f s
  · intro access t ht
    exact keys_of_evolves ht

end RatingVector

end PeerRatings
