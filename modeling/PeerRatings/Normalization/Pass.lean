/-
# Normalizing neighborhoods

Before votes are counted, the ratings of every neighbor are moved to the common scale.  A vector
that several entries point at is normalized **once**: normalizing twice is not the same as
normalizing once.  Vectors are told apart by handle and never by contents, so two neighbors with
the same ratings are each normalized.

The pass goes through the entries, items ascending and in the order of addition within an item,
and normalizes a vector when it first meets its handle, for the user of that entry
(`firstOccurrences`).  A vector that no entry points at stays as it is.

The first refusal ends the pass.  What was normalized before stays normalized, the vector whose
call was refused is left as that call left it, and the rest is untouched.
-/
import PeerRatings.Neighborhoods
import PeerRatings.Normalization.Normalizer

namespace PeerRatings

variable {σ τ α : Type}

/-! ## 1. What is to be normalized -/

/-- The first entry of each handle, as user and handle, leaving out handles seen before. -/
def firstOccurrences : List Handle → List (Neighbor α) → List (Int × Handle)
  | _, [] => []
  | seen, n :: rest =>
    if n.ratings ∈ seen then firstOccurrences seen rest
    else (n.user, n.ratings) :: firstOccurrences (n.ratings :: seen) rest

/-- The vectors that some entry points at, each with the user of the first such entry. -/
def Neighborhoods.referenced (N : Neighborhoods α) : List (Int × Handle) :=
  firstOccurrences [] N.allNeighbors

/-! ## 2. The pass -/

/-- Normalize vectors one after the other, up to the first refusal. -/
def Normalizer.normalizeEach (nz : Normalizer σ τ α) :
    List (Int × Handle) → Neighborhoods α →
      StateM σ (Except RequestError Unit × Neighborhoods α)
  | [], N => pure (.ok (), N)
  | (user, handle) :: rest, N =>
    match N.vector handle with
    | .error e => pure (.error e, N)
    | .ok v => do
      let (outcome, v') ← nz.normalize user v
      let N' := N.putVector handle v'
      match outcome with
      | .error e => pure (.error e, N')
      | .ok () => nz.normalizeEach rest N'

/-- Normalize every vector that some entry points at, once.  The answer is the number of vectors
normalized, or the first refusal; the neighborhoods are there in either case. -/
def Normalizer.normalizeNeighbors (nz : Normalizer σ τ α) (N : Neighborhoods α) :
    StateM σ (Except RequestError Nat × Neighborhoods α) := do
  let (outcome, N') ← nz.normalizeEach N.referenced N
  pure (outcome.map fun () => N.referenced.length, N')

/-- The normalized neighborhoods, for a caller who has no use for a pass that was cut short. -/
def Normalizer.normalized (nz : Normalizer σ τ α) (N : Neighborhoods α) :
    CallM σ (Neighborhoods α) :=
  ExceptT.mk do
    let (outcome, N') ← nz.normalizeNeighbors N
    pure (outcome.map fun _ => N')

/-! ## 3. Each handle once -/

theorem mem_firstOccurrences {seen : List Handle} {ns : List (Neighbor α)}
    {p : Int × Handle} (h : p ∈ firstOccurrences seen ns) :
    p.2 ∉ seen ∧ ∃ n ∈ ns, n.user = p.1 ∧ n.ratings = p.2 := by
  induction ns generalizing seen with
  | nil => simp [firstOccurrences] at h
  | cons n rest ih =>
    simp only [firstOccurrences] at h
    split at h
    · obtain ⟨hseen, m, hm, hp⟩ := ih h
      exact ⟨hseen, m, List.mem_cons_of_mem _ hm, hp⟩
    · rename_i hnew
      rcases List.mem_cons.1 h with rfl | h
      · exact ⟨hnew, n, List.mem_cons_self, rfl, rfl⟩
      · obtain ⟨hseen, m, hm, hp⟩ := ih h
        exact ⟨fun hmem => hseen (List.mem_cons_of_mem _ hmem), m, List.mem_cons_of_mem _ hm, hp⟩

/-- **No handle comes twice.** -/
theorem nodup_firstOccurrences (seen : List Handle) (ns : List (Neighbor α)) :
    ((firstOccurrences seen ns).map Prod.snd).Nodup := by
  induction ns generalizing seen with
  | nil => simp [firstOccurrences]
  | cons n rest ih =>
    simp only [firstOccurrences]
    split
    · exact ih seen
    · rw [List.map_cons, List.nodup_cons]
      refine ⟨fun hmem => ?_, ih _⟩
      obtain ⟨p, hp, hpn⟩ := List.mem_map.1 hmem
      exact (mem_firstOccurrences hp).1 (hpn ▸ List.mem_cons_self)

end PeerRatings
