/-
# Neighborhoods after any calls and any writes

Neighborhoods come about by calls, each of which stores a vector or lists a neighbor, and are then
changed by writes through handles.  What can be read of them after any number of both is said here
by the calls alone, without a state:

* the vectors are those that were **added**, in the order of the calls.  The handle of a vector is
  the number of vectors added before it;
* the entries are those that were **accepted**.  An entry is accepted if the index of its handle is
  below the number of vectors added before the call.  A vector that is added later does not bring
  back an entry that was refused for want of it.

`Reflects` is this description.  One call keeps it, with the call put behind the others
(`Reflects.perform`), so it holds after every list of calls (`reflects_built`).  Writes keep the
entries and the number of vectors, and change one vector each (`vector?_edited`).

A write may be any function on vectors.  Writing a single value is one (`map_setValue`), and so is
rewriting a vector as a whole.
-/
import Mathlib.Data.List.Induction
import PeerRatings.Proofs.Normalization.OncePerVector
import PeerRatings.Proofs.Prediction.Handles

namespace PeerRatings

variable {α : Type}

/-! ## 1. Calls -/

/-- A call that builds neighborhoods: store a vector, or list a neighbor under an item. -/
inductive BuildCall (α : Type) where
  | addVector (v : RatingVector α)
  | addNeighbor (item : Int) (n : Neighbor α)

/-- What such a call answers. -/
inductive BuildAnswer where
  | stored (handle : Handle)
  | listed
  | refused (e : RequestError)
  deriving DecidableEq

/-- The vectors that calls add, in the order of the calls. -/
def added : List (BuildCall α) → List (RatingVector α)
  | [] => []
  | .addVector v :: rest => v :: added rest
  | .addNeighbor _ _ :: rest => added rest

/-- The entries that are accepted when `count` vectors have been added before, each with its
item, in the order of the calls. -/
def acceptedFrom (count : Nat) : List (BuildCall α) → List (Int × Neighbor α)
  | [] => []
  | .addVector _ :: rest => acceptedFrom (count + 1) rest
  | .addNeighbor item n :: rest =>
    if n.ratings.index < count then (item, n) :: acceptedFrom count rest
    else acceptedFrom count rest

/-- The entries that are accepted when nothing has been added before. -/
def accepted (calls : List (BuildCall α)) : List (Int × Neighbor α) := acceptedFrom 0 calls

theorem added_append (calls later : List (BuildCall α)) :
    added (calls ++ later) = added calls ++ added later := by
  induction calls with
  | nil => rfl
  | cons call rest ih => cases call <;> simp [added, ih]

/-- Later calls are judged by all vectors added before them. -/
theorem acceptedFrom_append (count : Nat) (calls later : List (BuildCall α)) :
    acceptedFrom count (calls ++ later) =
      acceptedFrom count calls ++ acceptedFrom (count + (added calls).length) later := by
  induction calls generalizing count with
  | nil => rfl
  | cons call rest ih =>
    cases call with
    | addVector v =>
      have hcount : count + 1 + (added rest).length = count + ((added rest).length + 1) := by omega
      simp only [List.cons_append, acceptedFrom, added, ih, List.length_cons, hcount]
    | addNeighbor item n =>
      simp only [List.cons_append, acceptedFrom, added, ih]
      split <;> rfl

theorem accepted_append (calls later : List (BuildCall α)) :
    accepted (calls ++ later) =
      accepted calls ++ acceptedFrom (added calls).length later := by
  rw [accepted, acceptedFrom_append, Nat.zero_add, accepted]

/-- A write: the handle that it goes through, and what it makes of the vector. -/
abbrev Write (α : Type) := Handle × (RatingVector α → RatingVector α)

namespace Neighborhoods

/-- Make one call: its answer, and the neighborhoods that it leaves.  A call that is refused leaves
those that it found. -/
def perform (N : Neighborhoods α) : BuildCall α → BuildAnswer × Neighborhoods α
  | .addVector v => (.stored (N.addVector v).1, (N.addVector v).2)
  | .addNeighbor item n =>
    match N.addNeighbor item n with
    | .ok N' => (.listed, N')
    | .error e => (.refused e, N)

/-- The neighborhoods that calls build, one after the other. -/
def built (calls : List (BuildCall α)) : Neighborhoods α :=
  calls.foldl (fun N call => (N.perform call).2) .empty

theorem built_concat (calls : List (BuildCall α)) (call : BuildCall α) :
    built (calls ++ [call]) = ((built calls).perform call).2 := by
  rw [built, List.foldl_append, List.foldl_cons, List.foldl_nil, built]

/-! ## 2. One call -/

/-- A neighbor whose handle names a vector is listed, behind those already there. -/
theorem perform_addNeighbor_of_lt {N : Neighborhoods α} (item : Int) {n : Neighbor α}
    (h : n.ratings.index < N.vectorCount) :
    ∃ N', N.perform (.addNeighbor item n) = (.listed, N') ∧ N'.vectors = N.vectors ∧
      ∀ k, N'.neighbors k = N.neighbors k ++ if k = item then [n] else [] := by
  have hv : N.vector? n.ratings = some N.vectors[n.ratings.index] := Array.getElem?_eq_getElem h
  obtain ⟨N', hadd, hvectors, hentries⟩ := exists_addNeighbor item hv
  exact ⟨N', by rw [perform, hadd], hvectors, hentries⟩

/-- A neighbor whose handle names no vector is refused. -/
theorem perform_addNeighbor_of_le {N : Neighborhoods α} (item : Int) {n : Neighbor α}
    (h : N.vectorCount ≤ n.ratings.index) :
    N.perform (.addNeighbor item n) = (.refused (.unknownVector n.ratings), N) := by
  have herror : N.addNeighbor item n = .error (.unknownVector n.ratings) :=
    (N.addNeighbor_eq_error_iff item n _).mpr ⟨h, rfl⟩
  rw [perform, herror]

theorem perform_addNeighbor_listed_iff (N : Neighborhoods α) (item : Int) (n : Neighbor α) :
    (N.perform (.addNeighbor item n)).1 = .listed ↔ n.ratings.index < N.vectorCount := by
  constructor
  · intro hlisted
    by_contra hlt
    rw [perform_addNeighbor_of_le item (Nat.le_of_not_lt hlt)] at hlisted
    exact absurd hlisted (by simp)
  · intro hlt
    obtain ⟨N', hperform, -, -⟩ := perform_addNeighbor_of_lt item hlt
    rw [hperform]

/-- `N` holds the vectors that calls added and the entries that were accepted, and nothing
else. -/
structure Reflects (calls : List (BuildCall α)) (N : Neighborhoods α) : Prop where
  vectors : N.vectors.toList = added calls
  neighbors : ∀ item, N.neighbors item = entriesFor (accepted calls) item

namespace Reflects

variable {calls : List (BuildCall α)} {N : Neighborhoods α}

theorem vectorCount (h : Reflects calls N) : N.vectorCount = (added calls).length := by
  rw [← h.vectors, Array.length_toList, Neighborhoods.vectorCount]

theorem vector? (h : Reflects calls N) (handle : Handle) :
    N.vector? handle = (added calls)[handle.index]? := by
  rw [← h.vectors, Array.getElem?_toList, Neighborhoods.vector?]

/-- **One call keeps the description**, with the call put behind the others. -/
theorem perform (h : Reflects calls N) (call : BuildCall α) :
    Reflects (calls ++ [call]) (N.perform call).2 := by
  cases call with
  | addVector v =>
    refine ⟨?_, ?_⟩
    · rw [added_append, ← h.vectors]
      exact Array.toList_push
    · intro item
      have hentries : accepted (calls ++ [.addVector v]) = accepted calls := by
        rw [accepted_append]
        exact List.append_nil _
      rw [hentries]
      exact h.neighbors item
  | addNeighbor item n =>
    have hadded : added (calls ++ [.addNeighbor item n]) = added calls := by
      rw [added_append]
      exact List.append_nil _
    by_cases hlt : n.ratings.index < (added calls).length
    · obtain ⟨N', hperform, hvectors, hentries⟩ :=
        perform_addNeighbor_of_lt (N := N) item (h.vectorCount.symm ▸ hlt)
      rw [hperform]
      refine ⟨?_, ?_⟩
      · rw [hvectors, hadded, h.vectors]
      · intro k
        rw [hentries, h.neighbors, accepted_append, acceptedFrom, if_pos hlt, acceptedFrom]
        by_cases hk : item = k
        · simp [entriesFor, hk]
        · simp [entriesFor, hk, Ne.symm hk]
    · rw [perform_addNeighbor_of_le item (h.vectorCount.symm ▸ Nat.le_of_not_lt hlt)]
      refine ⟨?_, ?_⟩
      · rw [hadded, h.vectors]
      · intro k
        rw [accepted_append, acceptedFrom, if_neg hlt, acceptedFrom, List.append_nil]
        exact h.neighbors k

end Reflects

/-! ## 3. Any number of calls -/

/-- **After every list of calls, neighborhoods are what the calls say.** -/
theorem reflects_built (calls : List (BuildCall α)) : Reflects calls (built calls) := by
  induction calls using List.reverseRecOn with
  | nil => exact ⟨rfl, fun _ => rfl⟩
  | append_singleton calls call ih =>
    rw [built_concat]
    exact ih.perform call

/-- A handle that names a vector keeps it, whatever calls follow. -/
theorem vector?_built_append {calls : List (BuildCall α)} {handle : Handle} {v : RatingVector α}
    (later : List (BuildCall α)) (h : (built calls).vector? handle = some v) :
    (built (calls ++ later)).vector? handle = some v := by
  rw [(reflects_built _).vector?] at h ⊢
  rw [added_append]
  exact List.getElem?_append_left (List.getElem?_eq_some_iff.mp h).1 ▸ h

/-! ## 4. The views of the entries -/

theorem entriesFor_ne_nil_iff {es : List (Int × Neighbor α)} {item : Int} :
    entriesFor es item ≠ [] ↔ ∃ n, (item, n) ∈ es := by
  rw [entriesFor, ne_eq, List.map_eq_nil_iff, List.filter_eq_nil_iff]
  simp

/-- Nothing is listed exactly if no item has neighbors. -/
theorem isEmpty_iff (N : Neighborhoods α) : N.isEmpty ↔ ∀ item, N.neighbors item = [] := by
  rw [isEmpty_eq_all, IdMap.values_eq_map_keys N.byItem [], List.all_map, List.all_eq_true]
  constructor
  · intro h item
    by_cases hitem : item ∈ N.byItem.keys
    · exact List.isEmpty_iff.mp (h item hitem)
    · rw [neighbors, IdMap.get?_of_not_mem hitem]
      rfl
  · intro h item _
    exact List.isEmpty_iff.mpr (h item)

/-- All views of the entries of `N` agree on the entries `es`, and every handle in them names a
vector. -/
structure Lists (N : Neighborhoods α) (es : List (Int × Neighbor α)) : Prop where
  neighbors : ∀ item, N.neighbors item = entriesFor es item
  items_ascending : N.items.keys.Pairwise (· < ·)
  mem_items_iff : ∀ item, item ∈ N.items.keys ↔ ∃ n, (item, n) ∈ es
  allNeighbors : N.allNeighbors = N.items.keys.flatMap N.neighbors
  isEmpty_iff : N.isEmpty ↔ es = []
  resolves : ∀ item, ∀ n ∈ N.neighbors item, (N.vector? n.ratings).isSome

/-- **Entries item by item are enough.**  The other views follow: items are the keys under which
something is read, and a refused entry leaves no empty list behind. -/
theorem lists_of_neighbors {es : List (Int × Neighbor α)} {N : Neighborhoods α}
    (h : ∀ item, N.neighbors item = entriesFor es item) : N.Lists es where
  neighbors := h
  items_ascending := IdMap.keys_ascending _
  mem_items_iff := by
    intro item
    rw [N.mem_items_iff, h, entriesFor_ne_nil_iff]
  allNeighbors := N.allNeighbors_eq
  isEmpty_iff := by
    rw [N.isEmpty_iff, List.eq_nil_iff_forall_not_mem]
    constructor
    · rintro hnone ⟨item, n⟩ he
      have hne : entriesFor es item ≠ [] := entriesFor_ne_nil_iff.mpr ⟨n, he⟩
      rw [← h] at hne
      exact hne (hnone item)
    · intro hnone item
      rw [h]
      by_contra hne
      obtain ⟨n, he⟩ := entriesFor_ne_nil_iff.mp hne
      exact hnone (item, n) he
  resolves := fun _ _ hn => isSome_vector?_of_mem hn

/-! ## 5. Writes -/

/-- Change the vector behind a handle.  A handle that names no vector is refused. -/
def edit (N : Neighborhoods α) (handle : Handle) (f : RatingVector α → RatingVector α) :
    Except RequestError (Neighborhoods α) :=
  match N.vector handle with
  | .error e => .error e
  | .ok v => .ok (N.putVector handle (f v))

theorem edit_of_some {N : Neighborhoods α} {handle : Handle} {v : RatingVector α}
    (f : RatingVector α → RatingVector α) (h : N.vector? handle = some v) :
    N.edit handle f = .ok (N.putVector handle (f v)) := by
  rw [edit, vector, h]

theorem edit_of_none {N : Neighborhoods α} {handle : Handle}
    (f : RatingVector α → RatingVector α) (h : N.vector? handle = none) :
    N.edit handle f = .error (.unknownVector handle) := by
  rw [edit, vector, h]

/-- **A write changes one vector and nothing else.** -/
theorem exists_edit {N : Neighborhoods α} {handle : Handle} {v : RatingVector α}
    (f : RatingVector α → RatingVector α) (h : N.vector? handle = some v) :
    ∃ N', N.edit handle f = .ok N' ∧ N'.vector? handle = (N.vector? handle).map f ∧
      (∀ other, other ≠ handle → N'.vector? other = N.vector? other) ∧
      N'.vectorCount = N.vectorCount ∧ N'.byItem = N.byItem := by
  refine ⟨_, edit_of_some f h, ?_, ?_, vectorCount_putVector .., byItem_putVector ..⟩
  · rw [h, vector?_putVector_self (f v) (Option.isSome_of_eq_some h)]
    rfl
  · intro other hother
    exact vector?_putVector_ne N (f v) hother

/-- Writing one value is a change of the vector as a whole. -/
theorem map_setValue (N : Neighborhoods α) (handle : Handle) (key : Int) (x : α) :
    (N.setValue handle key x).map Prod.snd = N.edit handle fun v => (v.set key x).2 := by
  rw [setValue, edit]
  cases N.vector handle <;> rfl

/-- The neighborhoods after a write.  One that is refused leaves those that it found. -/
def edited (N : Neighborhoods α) (handle : Handle) (f : RatingVector α → RatingVector α) :
    Neighborhoods α :=
  match N.edit handle f with
  | .ok N' => N'
  | .error _ => N

theorem edited_of_some {N : Neighborhoods α} {handle : Handle} {v : RatingVector α}
    (f : RatingVector α → RatingVector α) (h : N.vector? handle = some v) :
    N.edited handle f = N.putVector handle (f v) := by
  rw [edited, edit_of_some f h]

theorem edited_of_none {N : Neighborhoods α} {handle : Handle}
    (f : RatingVector α → RatingVector α) (h : N.vector? handle = none) :
    N.edited handle f = N := by
  rw [edited, edit_of_none f h]

/-- **A write changes the vector of its handle and no other.** -/
theorem vector?_edited (N : Neighborhoods α) (handle other : Handle)
    (f : RatingVector α → RatingVector α) :
    (N.edited handle f).vector? other =
      if other = handle then (N.vector? handle).map f else N.vector? other := by
  cases hv : N.vector? handle with
  | some v =>
    rw [edited_of_some f hv, vector?_putVector, hv]
    rfl
  | none =>
    rw [edited_of_none f hv]
    split
    · rename_i heq
      rw [heq, hv]
      rfl
    · rfl

@[simp] theorem byItem_edited (N : Neighborhoods α) (handle : Handle)
    (f : RatingVector α → RatingVector α) : (N.edited handle f).byItem = N.byItem := by
  cases hv : N.vector? handle with
  | none => rw [edited_of_none f hv]
  | some v => rw [edited_of_some f hv, byItem_putVector]

@[simp] theorem vectorCount_edited (N : Neighborhoods α) (handle : Handle)
    (f : RatingVector α → RatingVector α) : (N.edited handle f).vectorCount = N.vectorCount := by
  cases hv : N.vector? handle with
  | none => rw [edited_of_none f hv]
  | some v => rw [edited_of_some f hv, vectorCount_putVector]

/-- The neighborhoods after writes, one after the other. -/
def editedEach (N : Neighborhoods α)
    (writes : List (Write α)) : Neighborhoods α :=
  writes.foldl (fun N write => N.edited write.1 write.2) N

/-- What writes do to the vector of one handle. -/
def through (writes : List (Write α)) (handle : Handle)
    (v : RatingVector α) : RatingVector α :=
  (writes.filter fun write => write.1 = handle).foldl (fun v write => write.2 v) v

/-- **Each vector sees the writes through its own handle**, in their order. -/
theorem vector?_editedEach (N : Neighborhoods α)
    (writes : List (Write α)) (handle : Handle) :
    (N.editedEach writes).vector? handle = (N.vector? handle).map (through writes handle) := by
  induction writes generalizing N with
  | nil => exact (Option.map_id' ..).symm
  | cons write rest ih =>
    rw [editedEach, List.foldl_cons, ← editedEach, ih, vector?_edited]
    by_cases hwrite : write.1 = handle
    · subst hwrite
      rw [if_pos rfl, Option.map_map]
      congr 1
      funext v
      simp [through]
    · rw [if_neg (Ne.symm hwrite)]
      congr 1
      funext v
      simp [through, hwrite]

@[simp] theorem byItem_editedEach (N : Neighborhoods α)
    (writes : List (Write α)) :
    (N.editedEach writes).byItem = N.byItem := by
  induction writes generalizing N with
  | nil => rfl
  | cons write rest ih => exact (ih _).trans (N.byItem_edited write.1 write.2)

@[simp] theorem vectorCount_editedEach (N : Neighborhoods α)
    (writes : List (Write α)) :
    (N.editedEach writes).vectorCount = N.vectorCount := by
  induction writes generalizing N with
  | nil => rfl
  | cons write rest ih => exact (ih _).trans (N.vectorCount_edited write.1 write.2)

/-! ## 6. The whole life of neighborhoods -/

/-- **Neighborhoods are what the calls say, and a write changes one vector.**  Whatever `calls` were
made:

* another vector gets the number of vectors added so far as its handle, and keeps it;
* another neighbor is listed exactly if the index of its handle is below that number, and a
  neighbor that is refused changes nothing;
* after any writes, all views agree on the accepted entries, whose handles keep resolving, and a
  handle shows the vector that was added under it, changed by the writes that went through it;
* one more write changes the vector of its handle and nothing else. -/
theorem built_lists_accepted (calls : List (BuildCall α)) :
    (∀ v, ((built calls).perform (.addVector v)).1 = .stored ⟨(added calls).length⟩) ∧
    (∀ item n, ((built calls).perform (.addNeighbor item n)).1 = .listed ↔
      n.ratings.index < (added calls).length) ∧
    (∀ item n, (added calls).length ≤ n.ratings.index →
      (built calls).perform (.addNeighbor item n) =
        (.refused (.unknownVector n.ratings), built calls)) ∧
    (∀ handle, (built calls).vector? handle = (added calls)[handle.index]?) ∧
    (∀ handle v, (built calls).vector? handle = some v →
      ∀ later, (built (calls ++ later)).vector? handle = some v) ∧
    (∀ item, ∀ n ∈ (built calls).neighbors item, ∀ later writes,
      (((built (calls ++ later)).editedEach writes).vector? n.ratings).isSome) ∧
    ∀ writes, let N := (built calls).editedEach writes
      N.Lists (accepted calls) ∧
      (∀ handle, N.vector? handle = (added calls)[handle.index]?.map (through writes handle)) ∧
      ∀ handle f,
        (handle.index < (added calls).length → ∃ N', N.edit handle f = .ok N' ∧
          N'.vector? handle = (N.vector? handle).map f ∧
          (∀ other, other ≠ handle → N'.vector? other = N.vector? other) ∧
          N'.vectorCount = N.vectorCount ∧ N'.byItem = N.byItem) ∧
        ((added calls).length ≤ handle.index →
          N.edit handle f = .error (.unknownVector handle)) := by
  have h : Reflects calls (built calls) := reflects_built calls
  refine ⟨?_, ?_, ?_, h.vector?, ?_, ?_, ?_⟩
  · intro v
    rw [← h.vectorCount]
    rfl
  · intro item n
    rw [← h.vectorCount]
    exact perform_addNeighbor_listed_iff _ item n
  · intro item n hle
    exact perform_addNeighbor_of_le item (h.vectorCount.symm ▸ hle)
  · intro handle v hv later
    exact vector?_built_append later hv
  · intro item n hn later writes
    obtain ⟨v, hv⟩ := (built calls).exists_vector hn
    rw [vector?_editedEach, vector?_built_append later hv]
    rfl
  · intro writes N
    have hlists : N.Lists (accepted calls) := by
      refine lists_of_neighbors ?_
      intro item
      rw [neighbors, byItem_editedEach]
      exact h.neighbors item
    have hvector : ∀ handle,
        N.vector? handle = (added calls)[handle.index]?.map (through writes handle) := by
      intro handle
      rw [vector?_editedEach, h.vector?]
    refine ⟨hlists, hvector, ?_⟩
    intro handle f
    constructor
    · intro hlt
      have hv : N.vector? handle = some (through writes handle (added calls)[handle.index]) := by
        rw [hvector, List.getElem?_eq_getElem hlt]
        rfl
      exact exists_edit f hv
    · intro hle
      refine edit_of_none f ?_
      rw [hvector, List.getElem?_eq_none hle]
      rfl

/-- A vector that is added later does not bring back an entry that was refused for want of it. -/
example : (built [.addNeighbor 1 ⟨7, 5, ⟨0⟩⟩, .addVector (.empty : RatingVector Int)]).isEmpty =
    true := by
  decide

end Neighborhoods

end PeerRatings
