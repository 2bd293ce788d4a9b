/-
# Sets of items

A prediction is asked for a **set** of items: the order in which a caller lists them, and how
often, does not matter.  `ItemSet.ofList` makes the set of a list, and two lists give the same
set exactly when they have the same members (`ItemSet.ofList_eq_ofList_iff`), so nothing that
works on the set can see the list behind it.

An item set is a map from ids to nothing of interest.  It inherits its canonical order, ascending
and without repeats, and its look-ups from `IdMap`.
-/
import PeerRatings.IdMap.Basic

namespace PeerRatings

/-- A finite set of item ids, listed ascending. -/
abbrev ItemSet := IdMap Unit

namespace ItemSet

/-! ## 1. Making sets -/

/-- The set of the items on a list. -/
def ofList (items : List Int) : ItemSet := IdMap.ofList (items.map fun item => (item, ()))

/-- The keys of a map. -/
def keysOf {β : Type u} (m : IdMap β) : ItemSet := m.mapEntries fun _ _ => ()

@[simp] theorem keys_keysOf {β : Type u} (m : IdMap β) : (keysOf m).keys = m.keys :=
  IdMap.keys_mapEntries ..

/-! ## 2. Membership -/

/-- Two item sets with the same members are equal. -/
theorem ext_mem {s t : ItemSet} (h : ∀ item, item ∈ s.keys ↔ item ∈ t.keys) : s = t := by
  refine IdMap.ext_get? fun item => ?_
  have hst := h item
  rw [IdMap.mem_keys_iff, IdMap.mem_keys_iff] at hst
  cases hs : s.get? item <;> cases ht : t.get? item <;> simp_all

theorem mem_keys_insertAll (items : List Int) (s : ItemSet) (item : Int) :
    item ∈ (s.insertAll (items.map fun i => (i, ()))).keys ↔ item ∈ items ∨ item ∈ s.keys := by
  induction items generalizing s with
  | nil => simp [IdMap.insertAll]
  | cons i rest ih =>
    have hstep : item ∈ (s.insert i ()).keys ↔ item = i ∨ item ∈ s.keys := by
      rw [IdMap.mem_keys_iff, IdMap.mem_keys_iff, IdMap.get?_insert]
      by_cases hi : item = i <;> simp [hi]
    have hrest := ih (s.insert i ())
    simp only [IdMap.insertAll, List.map_cons, List.foldl_cons] at hrest ⊢
    rw [hrest, hstep, List.mem_cons]
    constructor
    · rintro (h | h | h)
      · exact .inl (.inr h)
      · exact .inl (.inl h)
      · exact .inr h
    · rintro ((h | h) | h)
      · exact .inr (.inl h)
      · exact .inl h
      · exact .inr (.inr h)

/-- The set of a list has the members of the list. -/
@[simp] theorem mem_keys_ofList {items : List Int} {item : Int} :
    item ∈ (ofList items).keys ↔ item ∈ items := by
  have h := mem_keys_insertAll items IdMap.empty item
  simpa [ofList, IdMap.ofList, IdMap.keys, IdMap.empty] using h

/-- **A set has one form.**  Two lists make the same set exactly when they have the same
members, in whatever order and however often. -/
theorem ofList_eq_ofList_iff {a b : List Int} :
    ofList a = ofList b ↔ ∀ item, item ∈ a ↔ item ∈ b := by
  constructor
  · intro h item
    have ha : item ∈ (ofList a).keys ↔ item ∈ a := mem_keys_ofList
    have hb : item ∈ (ofList b).keys ↔ item ∈ b := mem_keys_ofList
    rw [← ha, h, hb]
  · intro h
    exact ext_mem fun item => by rw [mem_keys_ofList, mem_keys_ofList, h item]

/-- The set of a set's own members is that set. -/
@[simp] theorem ofList_keys (s : ItemSet) : ofList s.keys = s :=
  ext_mem fun _ => mem_keys_ofList

end ItemSet

end PeerRatings
