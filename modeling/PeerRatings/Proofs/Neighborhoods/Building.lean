/-
# Building neighborhoods

What the two steps of building do to what can be read: adding a vector makes one new handle and
changes no entry, listing a neighbor makes one new entry and changes no vector.  The handle that a
new vector gets is fresh, no entry carries it yet (`ne_addVector_of_mem`).

Both steps together copy a vector for one new entry, which is how neighborhoods without any
sharing come about.
-/
import PeerRatings.Neighborhoods

namespace PeerRatings.Neighborhoods

variable {α : Type} {N : Neighborhoods α}

/-! ## 1. Adding a vector -/

@[simp] theorem vectorCount_addVector (N : Neighborhoods α) (v : RatingVector α) :
    (N.addVector v).2.vectorCount = N.vectorCount + 1 :=
  Array.size_push ..

theorem vector?_addVector_self (N : Neighborhoods α) (v : RatingVector α) :
    (N.addVector v).2.vector? (N.addVector v).1 = some v := by
  rw [vector?_addVector, if_pos rfl]

/-- A handle that resolves keeps its vector when another one is added. -/
theorem vector?_addVector_of_some {handle : Handle} {w : RatingVector α} (v : RatingVector α)
    (h : N.vector? handle = some w) : (N.addVector v).2.vector? handle = some w := by
  have hlt : handle.index < N.vectors.size := (Array.getElem?_eq_some_iff.mp h).1
  have hne : handle ≠ (N.addVector v).1 := by
    rintro rfl
    exact absurd hlt (Nat.lt_irrefl _)
  rw [vector?_addVector, if_neg hne, h]

/-- **The handle of a new vector is fresh.** -/
theorem ne_addVector_of_mem {item : Int} {n : Neighbor α} (v : RatingVector α)
    (h : n ∈ N.neighbors item) : n.ratings ≠ (N.addVector v).1 := by
  intro heq
  have hlt := N.resolves_neighbors h
  rw [heq] at hlt
  exact absurd hlt (Nat.lt_irrefl _)

/-! ## 2. Listing a neighbor -/

/-- A neighbor whose handle resolves is listed, behind those already there. -/
theorem exists_addNeighbor {n : Neighbor α} {w : RatingVector α} (item : Int)
    (h : N.vector? n.ratings = some w) :
    ∃ N', N.addNeighbor item n = .ok N' ∧ N'.vectors = N.vectors ∧
      ∀ k, N'.neighbors k = N.neighbors k ++ if k = item then [n] else [] := by
  have hlt : n.ratings.index < N.vectors.size := (Array.getElem?_eq_some_iff.mp h).1
  rw [addNeighbor, dif_pos hlt]
  refine ⟨_, rfl, rfl, fun k => ?_⟩
  rw [neighbors, IdMap.get?_insert]
  by_cases hk : k = item
  · simp [hk]
  · simp [hk, neighbors]

theorem vector?_congr {N' : Neighborhoods α} (h : N'.vectors = N.vectors) (handle : Handle) :
    N'.vector? handle = N.vector? handle := by
  rw [vector?, vector?, h]

/-- Copy a vector, and list a neighbor who points at the copy. -/
theorem exists_addVector_addNeighbor (N : Neighborhoods α) (item user : Int) (similarity : α)
    (v : RatingVector α) :
    ∃ N', (N.addVector v).2.addNeighbor item ⟨user, similarity, (N.addVector v).1⟩ = .ok N' ∧
      N'.vector? (N.addVector v).1 = some v ∧
      (∀ handle w, N.vector? handle = some w → N'.vector? handle = some w) ∧
      ∀ k, N'.neighbors k =
        N.neighbors k ++ if k = item then [⟨user, similarity, (N.addVector v).1⟩] else [] := by
  obtain ⟨N', hadd, hvectors, hentries⟩ :=
    (N.addVector v).2.exists_addNeighbor item (n := ⟨user, similarity, (N.addVector v).1⟩)
      (N.vector?_addVector_self v)
  refine ⟨N', hadd, ?_, ?_, hentries⟩
  · rw [vector?_congr hvectors, vector?_addVector_self]
  · intro handle w h
    rw [vector?_congr hvectors, vector?_addVector_of_some v h]

end PeerRatings.Neighborhoods
