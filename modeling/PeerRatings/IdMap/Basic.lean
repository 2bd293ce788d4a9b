/-
# Finite maps keyed by ids

Users and items are named by integers, and nearly everything in this library is a finite map
from such ids: a user's ratings, the rows of a rating table, the neighbors listed per item.
`IdMap β` is the one container behind all of them.  It is a list of entries with **strictly
ascending keys**, and the order is part of the type, so

* a map has exactly one representation (`IdMap.ext_get?`): two maps with the same look-ups are
  equal;
* listing a map visits every key once, in ascending order;
* every operation below keeps the order by construction, and none has to check it.

The view of a map is its look-up `get?`.  Each operation comes with one lemma that says what
it does to the look-ups, and the rest of the library reasons through those lemmas.

Every function is structural in the list of entries, so a closed map evaluates in the kernel.
-/

namespace PeerRatings

universe u v w

/-- Keys ascend strictly along the list, hence none repeats. -/
abbrev AscendingKeys {β : Type u} (entries : List (Int × β)) : Prop :=
  entries.Pairwise fun a b => a.1 < b.1

/-- A finite map from ids to `β`, listed by strictly ascending id. -/
structure IdMap (β : Type u) where
  /-- The entries, in the order of their keys. -/
  entries : List (Int × β)
  /-- Each key is less than all later keys. -/
  ascending : AscendingKeys entries
  deriving DecidableEq

namespace IdMap

variable {β : Type u} {γ : Type v} {σ : Type w}

/-! ## 1. Reading -/

/-- The map without entries. -/
def empty : IdMap β := ⟨[], .nil⟩

instance : Inhabited (IdMap β) := ⟨empty⟩

/-- The first value paired with `key` in a list of entries. -/
def find? (key : Int) : List (Int × β) → Option β
  | [] => none
  | (k, b) :: rest => if key = k then some b else find? key rest

/-- The value at `key`, or `none` when `key` is not in the map. -/
def get? (m : IdMap β) (key : Int) : Option β := find? key m.entries

/-- Whether `key` is in the map. -/
def contains (m : IdMap β) (key : Int) : Bool := (m.get? key).isSome

/-- The keys, ascending. -/
def keys (m : IdMap β) : List Int := m.entries.map Prod.fst

/-- The values, in the order of their keys. -/
def values (m : IdMap β) : List β := m.entries.map Prod.snd

/-- The number of keys. -/
def size (m : IdMap β) : Nat := m.entries.length

/-- Whether the map has no entries. -/
def isEmpty (m : IdMap β) : Bool := m.entries.isEmpty

/-! ## 2. Look-ups in a list of entries -/

theorem find?_eq_none_of_lt {key : Int} {entries : List (Int × β)}
    (h : ∀ e ∈ entries, key < e.1) : find? key entries = none := by
  induction entries with
  | nil => rfl
  | cons e rest ih =>
    have hne : key ≠ e.1 := Int.ne_of_lt (h e List.mem_cons_self)
    simp [find?, hne, ih fun e' he' => h e' (List.mem_cons_of_mem _ he')]

/-- In ascending entries a key is found exactly at its own entry. -/
theorem find?_eq_some_iff {key : Int} {b : β} {entries : List (Int × β)}
    (h : AscendingKeys entries) : find? key entries = some b ↔ (key, b) ∈ entries := by
  induction entries with
  | nil => simp [find?]
  | cons e rest ih =>
    obtain ⟨hlt, hrest⟩ := List.pairwise_cons.1 h
    by_cases hk : key = e.1
    · have hnone : (key, b) ∉ rest := fun hmem => Int.lt_irrefl key (by
        simpa [hk] using hlt (key, b) hmem)
      subst hk
      simp [find?, hnone, Prod.ext_iff, eq_comm]
    · simp [find?, hk, ih hrest, Prod.ext_iff]

/-- **Ascending entries are determined by their look-ups.** -/
theorem entries_eq_of_find?_eq {l r : List (Int × β)} (hl : AscendingKeys l)
    (hr : AscendingKeys r) (h : ∀ key, find? key l = find? key r) : l = r := by
  induction l generalizing r with
  | nil =>
    cases r with
    | nil => rfl
    | cons e r => simpa [find?] using h e.1
  | cons d l ih =>
    cases r with
    | nil => simpa [find?] using h d.1
    | cons e r =>
      obtain ⟨hdl, hl'⟩ := List.pairwise_cons.1 hl
      obtain ⟨her, hr'⟩ := List.pairwise_cons.1 hr
      have hkey : d.1 = e.1 := by
        rcases Int.lt_trichotomy d.1 e.1 with hlt | heq | hgt
        · have hnone : find? d.1 (e :: r) = none := find?_eq_none_of_lt fun e' he' => by
            rcases List.mem_cons.1 he' with rfl | he'
            · exact hlt
            · exact Int.lt_trans hlt (her e' he')
          have := h d.1
          rw [hnone] at this
          simp [find?] at this
        · exact heq
        · have hnone : find? e.1 (d :: l) = none := find?_eq_none_of_lt fun d' hd' => by
            rcases List.mem_cons.1 hd' with rfl | hd'
            · exact hgt
            · exact Int.lt_trans hgt (hdl d' hd')
          have := h e.1
          rw [hnone] at this
          simp [find?] at this
      have hval : d.2 = e.2 := by
        have := h d.1
        simpa [find?, hkey] using this
      have hhead : d = e := Prod.ext hkey hval
      subst hhead
      have htail : ∀ key, find? key l = find? key r := by
        intro key
        by_cases hk : key = d.1
        · subst hk
          rw [find?_eq_none_of_lt hdl, find?_eq_none_of_lt her]
        · have := h key
          simpa [find?, hk] using this
      rw [ih hl' hr' htail]

/-! ## 3. The view: two maps with equal look-ups are equal -/

theorem get?_eq_some_iff {m : IdMap β} {key : Int} {b : β} :
    m.get? key = some b ↔ (key, b) ∈ m.entries :=
  find?_eq_some_iff m.ascending

/-- **Extensionality.**  A map is nothing but its look-ups. -/
theorem ext_get? {m n : IdMap β} (h : ∀ key, m.get? key = n.get? key) : m = n := by
  cases m with
  | mk l hl =>
    cases n with
    | mk r hr =>
      have : l = r := entries_eq_of_find?_eq hl hr h
      subst this
      rfl

@[simp] theorem get?_empty (key : Int) : (empty : IdMap β).get? key = none := rfl

theorem mem_keys_iff {m : IdMap β} {key : Int} : key ∈ m.keys ↔ (m.get? key).isSome := by
  simp only [keys, List.mem_map, Option.isSome_iff_exists, get?_eq_some_iff]
  constructor
  · rintro ⟨⟨k, b⟩, he, rfl⟩
    exact ⟨b, he⟩
  · rintro ⟨b, he⟩
    exact ⟨(key, b), he, rfl⟩

theorem contains_iff_mem_keys {m : IdMap β} {key : Int} : m.contains key ↔ key ∈ m.keys :=
  mem_keys_iff.symm

theorem get?_of_not_mem {m : IdMap β} {key : Int} (h : key ∉ m.keys) : m.get? key = none := by
  rwa [mem_keys_iff, Option.not_isSome_iff_eq_none] at h

/-- Keys are listed in strictly ascending order. -/
theorem keys_ascending (m : IdMap β) : m.keys.Pairwise (· < ·) :=
  List.pairwise_map.2 m.ascending

@[simp] theorem length_keys (m : IdMap β) : m.keys.length = m.size := List.length_map ..

@[simp] theorem length_values (m : IdMap β) : m.values.length = m.size := List.length_map ..

/-! ## 4. Insertion -/

/-- Put `(key, b)` at its place, in front of the first larger key; an entry that already has
`key` gives way to it. -/
def insertEntry (key : Int) (b : β) : List (Int × β) → List (Int × β)
  | [] => [(key, b)]
  | e :: rest =>
    if key < e.1 then (key, b) :: e :: rest
    else if key = e.1 then (key, b) :: rest
    else e :: insertEntry key b rest

theorem mem_insertEntry {key : Int} {b : β} {e : Int × β} {entries : List (Int × β)}
    (h : e ∈ insertEntry key b entries) : e = (key, b) ∨ e ∈ entries := by
  induction entries with
  | nil => simpa [insertEntry] using h
  | cons d rest ih =>
    simp only [insertEntry] at h
    split at h
    · simpa using h
    · split at h
      · rcases List.mem_cons.1 h with h | h
        · exact .inl h
        · exact .inr (List.mem_cons_of_mem _ h)
      · rcases List.mem_cons.1 h with h | h
        · exact .inr (h ▸ List.mem_cons_self)
        · exact (ih h).imp_right (List.mem_cons_of_mem _)

theorem ascending_insertEntry (key : Int) (b : β) {entries : List (Int × β)}
    (h : AscendingKeys entries) : AscendingKeys (insertEntry key b entries) := by
  induction entries with
  | nil => simp [insertEntry]
  | cons d rest ih =>
    obtain ⟨hlt, hrest⟩ := List.pairwise_cons.1 h
    simp only [insertEntry]
    split
    · rename_i hkd
      refine List.pairwise_cons.2 ⟨fun e he => ?_, h⟩
      rcases List.mem_cons.1 he with rfl | he
      · exact hkd
      · exact Int.lt_trans hkd (hlt e he)
    · split
      · rename_i heq
        exact List.pairwise_cons.2 ⟨fun e he => heq ▸ hlt e he, hrest⟩
      · refine List.pairwise_cons.2 ⟨fun e he => ?_, ih hrest⟩
        rcases mem_insertEntry he with rfl | he
        · show d.1 < key
          omega
        · exact hlt e he

theorem find?_insertEntry (key k : Int) (b : β) {entries : List (Int × β)}
    (h : AscendingKeys entries) :
    find? k (insertEntry key b entries) = if k = key then some b else find? k entries := by
  induction entries with
  | nil => rfl
  | cons d rest ih =>
    obtain ⟨-, hrest⟩ := List.pairwise_cons.1 h
    simp only [insertEntry]
    split
    · rfl
    · split
      · rename_i heq
        by_cases hk : k = key
        · simp [find?, hk]
        · have : k ≠ d.1 := heq ▸ hk
          simp [find?, hk, this]
      · rename_i hne
        by_cases hk : k = d.1
        · have : k ≠ key := fun e => hne (e.symm.trans hk)
          simp only [find?, if_pos hk, if_neg this]
        · simp only [find?, if_neg hk]
          exact ih hrest

/-- The map with `b` at `key`, whatever was there before. -/
def insert (m : IdMap β) (key : Int) (b : β) : IdMap β :=
  ⟨insertEntry key b m.entries, ascending_insertEntry key b m.ascending⟩

theorem get?_insert (m : IdMap β) (key k : Int) (b : β) :
    (m.insert key b).get? k = if k = key then some b else m.get? k :=
  find?_insertEntry key k b m.ascending

theorem get?_insert_self (m : IdMap β) (key : Int) (b : β) : (m.insert key b).get? key = some b := by
  simp [get?_insert]

theorem get?_insert_ne (m : IdMap β) {key k : Int} (b : β) (h : k ≠ key) :
    (m.insert key b).get? k = m.get? k := by
  simp [get?_insert, h]

/-- Insert pairs from left to right. -/
def insertAll (m : IdMap β) (pairs : List (Int × β)) : IdMap β :=
  pairs.foldl (fun acc pair => acc.insert pair.1 pair.2) m

/-- The map of a list of pairs in any order.  When a key repeats, the later pair counts. -/
def ofList (pairs : List (Int × β)) : IdMap β := empty.insertAll pairs

theorem insertAll_append (m : IdMap β) (a b : List (Int × β)) :
    m.insertAll (a ++ b) = (m.insertAll a).insertAll b :=
  List.foldl_append

/-! ## 5. New values over fixed keys -/

/-- Change every value; the keys stay. -/
def mapEntries (f : Int → β → γ) (m : IdMap β) : IdMap γ :=
  ⟨m.entries.map fun e => (e.1, f e.1 e.2), List.pairwise_map.2 m.ascending⟩

theorem find?_map (f : Int → β → γ) (key : Int) (entries : List (Int × β)) :
    find? key (entries.map fun e => (e.1, f e.1 e.2)) = (find? key entries).map (f key) := by
  induction entries with
  | nil => rfl
  | cons e rest ih =>
    by_cases hk : key = e.1
    · simp [find?, hk]
    · simp [find?, hk, ih]

@[simp] theorem get?_mapEntries (f : Int → β → γ) (m : IdMap β) (key : Int) :
    (m.mapEntries f).get? key = (m.get? key).map (f key) :=
  find?_map f key m.entries

@[simp] theorem keys_mapEntries (f : Int → β → γ) (m : IdMap β) :
    (m.mapEntries f).keys = m.keys := by
  simp [keys, mapEntries]

/-- Put `b` at `key` if `key` is in the map; any other key leaves the map alone. -/
def overwrite (m : IdMap β) (key : Int) (b : β) : IdMap β :=
  m.mapEntries fun k old => if k = key then b else old

theorem get?_overwrite (m : IdMap β) (key k : Int) (b : β) :
    (m.overwrite key b).get? k
      = if k = key then (m.get? key).map fun _ => b else m.get? k := by
  by_cases hk : k = key
  · subst hk
    simp [overwrite]
  · simp [overwrite, hk]

@[simp] theorem keys_overwrite (m : IdMap β) (key : Int) (b : β) :
    (m.overwrite key b).keys = m.keys :=
  keys_mapEntries ..

/-- Change the values of a list of entries from left to right, passing a state along. -/
def mapAccumEntries (f : σ → Int → β → σ × γ) : σ → List (Int × β) → σ × List (Int × γ)
  | s, [] => (s, [])
  | s, e :: rest =>
    let step := f s e.1 e.2
    let tail := mapAccumEntries f step.1 rest
    (tail.1, (e.1, step.2) :: tail.2)

theorem keys_mapAccumEntries (f : σ → Int → β → σ × γ) (s : σ) (entries : List (Int × β)) :
    (mapAccumEntries f s entries).2.map Prod.fst = entries.map Prod.fst := by
  induction entries generalizing s with
  | nil => rfl
  | cons e rest ih => simp [mapAccumEntries, ih]

/-- Change every value, keys ascending, passing a state along. -/
def mapAccum (f : σ → Int → β → σ × γ) (s : σ) (m : IdMap β) : σ × IdMap γ :=
  let visited := mapAccumEntries f s m.entries
  (visited.1, ⟨visited.2, by
    have h : (visited.2.map Prod.fst).Pairwise (· < ·) := by
      rw [keys_mapAccumEntries]
      exact keys_ascending m
    exact List.pairwise_map.1 h⟩)

@[simp] theorem keys_mapAccum (f : σ → Int → β → σ × γ) (s : σ) (m : IdMap β) :
    (m.mapAccum f s).2.keys = m.keys :=
  keys_mapAccumEntries f s m.entries

end IdMap

end PeerRatings
