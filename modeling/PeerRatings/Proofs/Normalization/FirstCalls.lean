/-
# The calls that a normalization pass owes

The pass over neighborhoods finds its work with a list of handles that it has seen
(`firstOccurrences`).  This file says the same thing without that list:

* the handles in question are those that some entry carries, each once, in the order in which
  they are first met when items are read ascending and entries as they were added
  (`handlesMet`);
* a handle is paired with the user of the first entry that carries it (`firstUser?`) and with the
  vector behind it (`firstCall?`).

`map_firstCall?` is the statement the rest relies on: every handle that is met has its call, in
its place.  An entry's handle always resolves, so no handle falls out on the way.
-/
import Mathlib.Data.List.Basic
import PeerRatings.Normalization.Pass

namespace PeerRatings

variable {α : Type}

/-! ## 1. Entries in the order in which they are read -/

theorem IdMap.values_eq_map_keys {β : Type} (m : IdMap β) (d : β) :
    m.values = m.keys.map fun key => (m.get? key).getD d := by
  rw [IdMap.values, IdMap.keys, List.map_map]
  refine List.map_congr_left ?_
  intro e he
  have hget : m.get? e.1 = some e.2 := IdMap.get?_eq_some_iff.mpr he
  simp [hget]

namespace Neighborhoods

/-- **Items ascending, entries as they were added.** -/
theorem allNeighbors_eq (N : Neighborhoods α) :
    N.allNeighbors = N.items.keys.flatMap N.neighbors := by
  rw [allNeighbors, IdMap.values_eq_map_keys N.byItem [], items, ItemSet.keys_keysOf,
    ← List.flatMap_def]
  rfl

theorem mem_items_iff (N : Neighborhoods α) (item : Int) :
    item ∈ N.items.keys ↔ N.neighbors item ≠ [] := by
  rw [items, ItemSet.keys_keysOf, IdMap.mem_keys_iff, neighbors]
  cases hget : N.byItem.get? item with
  | none => simp
  | some ns => simpa using N.nonempty _ (IdMap.get?_eq_some_iff.mp hget)

theorem mem_allNeighbors_iff {N : Neighborhoods α} {n : Neighbor α} :
    n ∈ N.allNeighbors ↔ ∃ item, n ∈ N.neighbors item := by
  rw [allNeighbors_eq, List.mem_flatMap]
  constructor
  · rintro ⟨item, -, hn⟩
    exact ⟨item, hn⟩
  · rintro ⟨item, hn⟩
    exact ⟨item, (N.mem_items_iff item).mpr (List.ne_nil_of_mem hn), hn⟩

/-! ## 2. Handles, first users and calls -/

/-- The handles that some entry carries, each once, in the order in which they are first met. -/
def handlesMet (N : Neighborhoods α) : List Handle :=
  ((N.items.keys.flatMap N.neighbors).map Neighbor.ratings).eraseDups

/-- The user of the first entry that carries a handle. -/
def firstUser? (N : Neighborhoods α) (handle : Handle) : Option Int :=
  ((N.items.keys.flatMap N.neighbors).find? fun n => n.ratings = handle).map Neighbor.user

/-- The call that a handle is owed: its first user, and the vector behind it. -/
def firstCall? (N : Neighborhoods α) (handle : Handle) : Option (Int × RatingVector α) :=
  (N.firstUser? handle).bind fun user => (N.vector? handle).map (Prod.mk user)

/-- The calls that the handles are owed, in the order in which the handles are first met. -/
def firstCalls (N : Neighborhoods α) : List (Int × RatingVector α) :=
  N.handlesMet.filterMap N.firstCall?

theorem mem_handlesMet_iff {N : Neighborhoods α} {handle : Handle} :
    handle ∈ N.handlesMet ↔ ∃ item, ∃ n ∈ N.neighbors item, n.ratings = handle := by
  rw [handlesMet, List.mem_eraseDups, List.mem_map, ← allNeighbors_eq]
  constructor
  · rintro ⟨n, hn, rfl⟩
    obtain ⟨item, hitem⟩ := mem_allNeighbors_iff.mp hn
    exact ⟨item, n, hitem, rfl⟩
  · rintro ⟨item, n, hn, rfl⟩
    exact ⟨n, mem_allNeighbors_iff.mpr ⟨item, hn⟩, rfl⟩

theorem isSome_vector?_of_mem {N : Neighborhoods α} {item : Int} {n : Neighbor α}
    (h : n ∈ N.neighbors item) : (N.vector? n.ratings).isSome := by
  obtain ⟨v, hv⟩ := N.exists_vector h
  rw [hv]
  rfl

/-- A handle that is met resolves. -/
theorem isSome_vector?_of_met {N : Neighborhoods α} {handle : Handle}
    (h : handle ∈ N.handlesMet) : (N.vector? handle).isSome := by
  obtain ⟨item, n, hn, rfl⟩ := mem_handlesMet_iff.mp h
  exact isSome_vector?_of_mem hn

/-- **A handle that is met has its call.** -/
theorem exists_firstCall {N : Neighborhoods α} {handle : Handle} (h : handle ∈ N.handlesMet) :
    ∃ user v, N.firstUser? handle = some user ∧ N.vector? handle = some v ∧
      N.firstCall? handle = some (user, v) := by
  obtain ⟨item, n, hn, rfl⟩ := mem_handlesMet_iff.mp h
  obtain ⟨v, hv⟩ := N.exists_vector hn
  have hmem : n ∈ N.items.keys.flatMap N.neighbors := by
    rw [← allNeighbors_eq]
    exact mem_allNeighbors_iff.mpr ⟨item, hn⟩
  cases hfind : (N.items.keys.flatMap N.neighbors).find? fun m => m.ratings = n.ratings with
  | none =>
    have := List.find?_eq_none.mp hfind n hmem
    simp at this
  | some m =>
    have huser : N.firstUser? n.ratings = some m.user := by rw [firstUser?, hfind]; rfl
    exact ⟨m.user, v, huser, hv, by rw [firstCall?, huser, hv]; rfl⟩

/-- **Calls stand in the places of their handles.** -/
theorem map_firstCall? (N : Neighborhoods α) :
    N.handlesMet.map N.firstCall? = N.firstCalls.map some := by
  rw [firstCalls]
  have hall : ∀ handle ∈ N.handlesMet, (N.firstCall? handle).isSome := by
    intro handle h
    obtain ⟨user, v, -, -, hcall⟩ := exists_firstCall h
    simp [hcall]
  generalize N.handlesMet = handles at hall
  induction handles with
  | nil => rfl
  | cons handle rest ih =>
    obtain ⟨call, hcall⟩ := Option.isSome_iff_exists.mp (hall handle List.mem_cons_self)
    have hrest := ih fun h hh => hall h (List.mem_cons_of_mem _ hh)
    simp [hcall, hrest]

theorem getElem?_firstCalls {N : Neighborhoods α} {i : Nat} {handle : Handle}
    {call : Int × RatingVector α} (hi : N.handlesMet[i]? = some handle)
    (hcall : N.firstCall? handle = some call) : N.firstCalls[i]? = some call := by
  have hplace : N.handlesMet[i]?.map N.firstCall? = N.firstCalls[i]?.map some := by
    rw [← List.getElem?_map, ← List.getElem?_map, N.map_firstCall?]
  rw [hi, Option.map_some, hcall] at hplace
  obtain ⟨c, hc, heq⟩ := Option.map_eq_some_iff.mp hplace.symm
  rw [hc, heq]

theorem length_firstCalls (N : Neighborhoods α) :
    N.firstCalls.length = N.handlesMet.length := by
  have h := congrArg List.length N.map_firstCall?
  simpa using h.symm

theorem mem_firstCalls_iff {N : Neighborhoods α} {call : Int × RatingVector α} :
    call ∈ N.firstCalls ↔ ∃ handle ∈ N.handlesMet, N.firstCall? handle = some call :=
  List.mem_filterMap

end Neighborhoods

/-! ## 3. The scan with a list of handles seen finds them -/

theorem handles_firstOccurrences (seen : List Handle) (ns : List (Neighbor α)) :
    (firstOccurrences seen ns).map Prod.snd =
      ((ns.map Neighbor.ratings).filter fun h => h ∉ seen).eraseDups := by
  induction ns generalizing seen with
  | nil => rfl
  | cons n rest ih =>
    rw [firstOccurrences, List.map_cons, List.filter_cons]
    by_cases hseen : n.ratings ∈ seen
    · simp [hseen, ih seen]
    · have hskip : ∀ h : Handle, (decide (h ∉ n.ratings :: seen)) =
          (!(h == n.ratings) && decide (h ∉ seen)) := by
        intro h
        by_cases heq : h = n.ratings <;> simp [heq]
      rw [if_neg hseen, if_pos (by simpa using hseen), List.map_cons, ih, List.eraseDups_cons,
        List.filter_filter]
      simp only [hskip]

theorem find?_user_of_mem_firstOccurrences {seen : List Handle} {ns : List (Neighbor α)}
    {p : Int × Handle} (h : p ∈ firstOccurrences seen ns) :
    (ns.find? fun n => n.ratings = p.2).map Neighbor.user = some p.1 := by
  induction ns generalizing seen with
  | nil => simp [firstOccurrences] at h
  | cons n rest ih =>
    rw [firstOccurrences] at h
    by_cases hseen : n.ratings ∈ seen
    · rw [if_pos hseen] at h
      -- the handle of `n` was seen before, so the entry that `p` comes from is not `n`
      have hne : n.ratings ≠ p.2 := fun heq => (mem_firstOccurrences h).1 (heq ▸ hseen)
      simpa [hne] using ih h
    · rw [if_neg hseen] at h
      rcases List.mem_cons.mp h with rfl | h
      · simp
      · have hne : n.ratings ≠ p.2 := fun heq =>
          (mem_firstOccurrences h).1 (heq ▸ List.mem_cons_self)
        simpa [hne] using ih h

namespace Neighborhoods

theorem handles_referenced (N : Neighborhoods α) :
    N.referenced.map Prod.snd = N.handlesMet := by
  rw [referenced, handles_firstOccurrences, handlesMet, allNeighbors_eq,
    List.filter_eq_self.mpr (by simp)]

theorem nodup_handlesMet (N : Neighborhoods α) : N.handlesMet.Nodup := by
  rw [← handles_referenced]
  exact nodup_firstOccurrences [] N.allNeighbors

theorem firstUser?_of_mem_referenced {N : Neighborhoods α} {p : Int × Handle}
    (h : p ∈ N.referenced) : N.firstUser? p.2 = some p.1 := by
  rw [firstUser?, ← allNeighbors_eq]
  exact find?_user_of_mem_firstOccurrences h

/-- The calls, read off the work list of the pass. -/
theorem firstCalls_eq_filterMap_referenced (N : Neighborhoods α) :
    N.firstCalls = N.referenced.filterMap fun p => (N.vector? p.2).map (Prod.mk p.1) := by
  rw [firstCalls, ← handles_referenced, List.filterMap_map]
  refine List.filterMap_congr ?_
  intro p hp
  rw [Function.comp_apply, firstCall?, firstUser?_of_mem_referenced hp, Option.bind_some]

end Neighborhoods

end PeerRatings
