/-
# Neighborhoods

For one request, the users who may vote are collected per item.  A neighbor who votes on many
items has **one** ratings vector, stored once and pointed at by a handle, so that what is done to
it once is seen from every item.

Two facts are part of the type, since every operation keeps them:

* every handle that a neighbor carries names a stored vector (`resolves`);
* an item that is listed has at least one neighbor (`nonempty`).

The first is kept at the door: `addNeighbor` refuses a handle that names nothing, and a refusal
leaves no trace.  Vectors are only ever added or changed, never removed, so a handle that once
resolved always does.

Handles count the vectors added before.  Equal contents under two handles are two vectors.
-/
import PeerRatings.ItemSet
import PeerRatings.RatingVector

namespace PeerRatings

/-- A user who may vote on an item, with the similarity to the user who asks and the place of the
ratings. -/
structure Neighbor (α : Type) where
  user : Int
  similarity : α
  ratings : Handle
  deriving DecidableEq

/-- The neighbors found for one request, by item, with their ratings. -/
structure Neighborhoods (α : Type) where
  /-- The ratings vectors, in the order in which they were added. -/
  vectors : Array (RatingVector α)
  /-- The neighbors of each item, in the order in which they were added. -/
  byItem : IdMap (List (Neighbor α))
  /-- Every neighbor's handle names a stored vector. -/
  resolves : ∀ e ∈ byItem.entries, ∀ n ∈ e.2, n.ratings.index < vectors.size
  /-- No item is listed without neighbors. -/
  nonempty : ∀ e ∈ byItem.entries, e.2 ≠ []
  deriving DecidableEq

namespace Neighborhoods

variable {α : Type}

/-! ## 1. Reading -/

/-- No vectors and no neighbors. -/
def empty : Neighborhoods α where
  vectors := #[]
  byItem := .empty
  resolves := by simp [IdMap.empty]
  nonempty := by simp [IdMap.empty]

instance : Inhabited (Neighborhoods α) := ⟨empty⟩

/-- The neighbors of an item, none if the item is not listed. -/
def neighbors (N : Neighborhoods α) (item : Int) : List (Neighbor α) :=
  (N.byItem.get? item).getD []

/-- The items that have neighbors. -/
def items (N : Neighborhoods α) : ItemSet := ItemSet.keysOf N.byItem

/-- Every neighbor entry: items ascending, and in the order of addition within an item.  A
neighbor stands here once per item it votes on. -/
def allNeighbors (N : Neighborhoods α) : List (Neighbor α) := N.byItem.values.flatten

/-- The vector behind a handle, if there is one. -/
def vector? (N : Neighborhoods α) (handle : Handle) : Option (RatingVector α) :=
  N.vectors[handle.index]?

/-- The vector behind a handle. -/
def vector (N : Neighborhoods α) (handle : Handle) :
    Except RequestError (RatingVector α) :=
  match N.vector? handle with
  | some v => .ok v
  | none => .error (.unknownVector handle)

/-- The number of stored vectors, whether or not a neighbor points at them. -/
def vectorCount (N : Neighborhoods α) : Nat := N.vectors.size

/-- Whether no item has neighbors. -/
def isEmpty (N : Neighborhoods α) : Bool := N.byItem.isEmpty

/-! ## 2. Adding -/

/-- Store a vector and return its handle. -/
def addVector (N : Neighborhoods α) (v : RatingVector α) : Handle × Neighborhoods α :=
  (⟨N.vectors.size⟩,
    { N with
      vectors := N.vectors.push v
      resolves := fun e he n hn => by
        have := N.resolves e he n hn
        rw [Array.size_push]
        omega })

theorem mem_insert_entries {m : IdMap (List (Neighbor α))} {item : Int} {ns : List (Neighbor α)}
    {e : Int × List (Neighbor α)} (h : e ∈ (m.insert item ns).entries) :
    e = (item, ns) ∨ e ∈ m.entries :=
  IdMap.mem_insertEntry h

theorem resolves_neighbors (N : Neighborhoods α) {item : Int} {n : Neighbor α}
    (h : n ∈ N.neighbors item) : n.ratings.index < N.vectors.size := by
  simp only [neighbors] at h
  cases hget : N.byItem.get? item with
  | none => simp [hget] at h
  | some ns =>
    rw [hget] at h
    exact N.resolves _ (IdMap.get?_eq_some_iff.1 hget) n h

/-- List a neighbor under an item, behind those already listed.  A neighbor whose handle names no
stored vector is refused. -/
def addNeighbor (N : Neighborhoods α) (item : Int) (n : Neighbor α) :
    Except RequestError (Neighborhoods α) :=
  if h : n.ratings.index < N.vectors.size then
    .ok { N with
      byItem := N.byItem.insert item (N.neighbors item ++ [n])
      resolves := fun e he m hm => by
        rcases mem_insert_entries he with rfl | he
        · rcases List.mem_append.1 hm with hm | hm
          · exact N.resolves_neighbors hm
          · rw [List.mem_singleton.1 hm]
            exact h
        · exact N.resolves e he m hm
      nonempty := fun e he => by
        rcases mem_insert_entries he with rfl | he
        · simp
        · exact N.nonempty e he }
  else .error (.unknownVector n.ratings)

/-! ## 3. Changing vectors -/

/-- Put `v` in the place of the vector behind a handle.  A handle that names nothing changes
nothing. -/
def putVector (N : Neighborhoods α) (handle : Handle) (v : RatingVector α) :
    Neighborhoods α :=
  { N with
    vectors := N.vectors.setIfInBounds handle.index v
    resolves := fun e he n hn => by
      rw [Array.size_setIfInBounds]
      exact N.resolves e he n hn }

/-- Write one value of the vector behind a handle and report the value it replaces. -/
def setValue (N : Neighborhoods α) (handle : Handle) (key : Int) (x : α) :
    Except RequestError (Option α × Neighborhoods α) :=
  match N.vector handle with
  | .error e => .error e
  | .ok v =>
    let (previous, v') := v.set key x
    .ok (previous, N.putVector handle v')

/-! ## 4. The view -/

/-- **A vector keeps its handle.**  Adding another vector changes no vector that is there. -/
theorem vector?_addVector (N : Neighborhoods α) (v : RatingVector α) (handle : Handle) :
    (N.addVector v).2.vector? handle =
      if handle = (N.addVector v).1 then some v else N.vector? handle := by
  obtain ⟨i⟩ := handle
  simp only [addVector, vector?, Array.getElem?_push, Handle.mk.injEq]

theorem vector?_putVector (N : Neighborhoods α) (handle other : Handle)
    (v : RatingVector α) :
    (N.putVector handle v).vector? other =
      if other = handle then (N.vector? handle).map fun _ => v else N.vector? other := by
  obtain ⟨i⟩ := handle
  obtain ⟨j⟩ := other
  simp only [putVector, vector?, Array.getElem?_setIfInBounds, Handle.mk.injEq]
  by_cases hij : j = i
  · subst hij
    by_cases hj : j < N.vectors.size
    · simp [hj]
    · simp [hj]
  · simp [hij, Ne.symm hij]

@[simp] theorem byItem_putVector (N : Neighborhoods α) (handle : Handle)
    (v : RatingVector α) : (N.putVector handle v).byItem = N.byItem := rfl

@[simp] theorem vectorCount_putVector (N : Neighborhoods α) (handle : Handle)
    (v : RatingVector α) : (N.putVector handle v).vectorCount = N.vectorCount :=
  Array.size_setIfInBounds

/-- **No item is listed with an empty list**, so leaving such items out leaves out nothing. -/
theorem keys_items (N : Neighborhoods α) :
    N.items.keys = (N.byItem.entries.filter fun e => !e.2.isEmpty).map Prod.fst := by
  have hkept : (N.byItem.entries.filter fun e => !e.2.isEmpty) = N.byItem.entries :=
    List.filter_eq_self.2 fun e he => by simpa using N.nonempty e he
  rw [items, ItemSet.keys_keysOf, hkept, IdMap.keys]

/-- For the same reason there are no items exactly if all lists are empty. -/
theorem isEmpty_eq_all (N : Neighborhoods α) : N.isEmpty = N.byItem.values.all List.isEmpty := by
  rw [isEmpty, IdMap.isEmpty, IdMap.values, List.all_map]
  cases hentries : N.byItem.entries with
  | nil => rfl
  | cons e rest =>
    have hsome : e.2 ≠ [] := N.nonempty e (by rw [hentries]; exact List.mem_cons_self)
    simp [hsome]

/-- A listed neighbor's vector is there. -/
theorem exists_vector (N : Neighborhoods α) {item : Int} {n : Neighbor α}
    (h : n ∈ N.neighbors item) : ∃ v, N.vector? n.ratings = some v :=
  ⟨_, Array.getElem?_eq_getElem (N.resolves_neighbors h)⟩

/-- A neighbor is accepted exactly when its handle names a stored vector. -/
theorem addNeighbor_eq_error_iff (N : Neighborhoods α) (item : Int) (n : Neighbor α)
    (e : RequestError) :
    N.addNeighbor item n = .error e ↔
      N.vectorCount ≤ n.ratings.index ∧ e = .unknownVector n.ratings := by
  simp only [addNeighbor, vectorCount]
  split
  · simp
    omega
  · rename_i h
    simp only [Except.error.injEq]
    constructor
    · rintro rfl
      exact ⟨Nat.le_of_not_lt h, rfl⟩
    · rintro ⟨-, rfl⟩
      rfl

end Neighborhoods

end PeerRatings
