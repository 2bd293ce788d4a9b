/-
# Every listed vector is normalized once

A pass makes calls and stores what they leave, in turns.  Since no handle comes twice, the turns
can be taken apart: **first all calls, on the vectors as they were before the pass, then all
writes** (`normalizeEach_eq`).  The calls are made by `Normalizer.callEach`, which knows nothing
of neighborhoods, and the writes by `Neighborhoods.putEach`, which knows nothing of normalizers.

The equation holds for a pass that is cut short as well: what is written is then a prefix of the
handles, since `callEach` answers for the calls that it made.

From it come the calls of a complete pass and what it leaves (`normalizeNeighbors_once`).  The
normalizer may keep a state, so the i-th answer may depend on the calls before it.  That is why
the vectors left behind are compared with the answers of `callEach` from the same state, and not
with a function of user and vector.
-/
import PeerRatings.Journal
import PeerRatings.Proofs.Normalization.FirstCalls

namespace PeerRatings

variable {σ τ α : Type}

/-! ## 1. Calls without neighborhoods -/

/-- Call `normalize` for users with their vectors, one after the other, up to the first refusal:
how the last call ended, and the vector that each call left. -/
def Normalizer.callEach (nz : Normalizer σ τ α) :
    List (Int × RatingVector α) → StateM σ (Except RequestError Unit × List (RatingVector α))
  | [], s => ((.ok (), []), s)
  | call :: rest, s =>
    match nz.normalize call.1 call.2 s with
    | ((.error e, v), s') => ((.error e, [v]), s')
    | ((.ok (), v), s') =>
      (((nz.callEach rest s').1.1, v :: (nz.callEach rest s').1.2), (nz.callEach rest s').2)

namespace Normalizer

theorem callEach_cons_ok {nz : Normalizer σ τ α} {v : RatingVector α} {s s' : σ}
    (call : Int × RatingVector α) (rest : List (Int × RatingVector α))
    (h : nz.normalize call.1 call.2 s = ((.ok (), v), s')) :
    nz.callEach (call :: rest) s =
      (((nz.callEach rest s').1.1, v :: (nz.callEach rest s').1.2), (nz.callEach rest s').2) := by
  rw [callEach, h]

theorem callEach_cons_error {nz : Normalizer σ τ α} {v : RatingVector α} {s s' : σ}
    {e : RequestError} (call : Int × RatingVector α) (rest : List (Int × RatingVector α))
    (h : nz.normalize call.1 call.2 s = ((.error e, v), s')) :
    nz.callEach (call :: rest) s = ((.error e, [v]), s') := by
  rw [callEach, h]

/-- Without a refusal every call has its answer. -/
theorem length_callEach {nz : Normalizer σ τ α} {calls : List (Int × RatingVector α)} {s : σ}
    (h : (nz.callEach calls s).1.1 = .ok ()) :
    (nz.callEach calls s).1.2.length = calls.length := by
  induction calls generalizing s with
  | nil => rfl
  | cons call rest ih =>
    obtain ⟨⟨outcome, v⟩, s', hcall⟩ : ∃ a s', nz.normalize call.1 call.2 s = (a, s') := ⟨_, _, rfl⟩
    cases outcome with
    | error e =>
      rw [callEach_cons_error call rest hcall] at h
      exact absurd h (by simp)
    | ok _ =>
      rw [callEach_cons_ok call rest hcall] at h ⊢
      simp [ih h]

/-- **The journal of a run of calls** holds the calls that were made, with the vectors as they
came in. -/
theorem callEach_journaled (nz : Normalizer σ τ α) (calls : List (Int × RatingVector α)) (s : σ)
    (log : List (JournalEntry α)) :
    nz.journaled.callEach calls (s, log) =
      ((nz.callEach calls s).1, ((nz.callEach calls s).2,
        log ++ (calls.take (nz.callEach calls s).1.2.length).map fun call =>
          .normalize call.1 call.2)) := by
  induction calls generalizing s log with
  | nil => simp [callEach]
  | cons call rest ih =>
    obtain ⟨⟨outcome, v⟩, s', hcall⟩ : ∃ a s', nz.normalize call.1 call.2 s = (a, s') := ⟨_, _, rfl⟩
    have hjournal : nz.journaled.normalize call.1 call.2 (s, log) =
        ((outcome, v), (s', log ++ [.normalize call.1 call.2])) := by
      show journal _ (nz.normalize call.1 call.2) (s, log) = _
      rw [journal_apply, hcall]
    cases outcome with
    | error e =>
      rw [callEach_cons_error call rest hcall, callEach_cons_error call rest hjournal]
      simp
    | ok _ =>
      rw [callEach_cons_ok call rest hcall, callEach_cons_ok call rest hjournal, ih]
      simp

end Normalizer

/-! ## 2. Writes without calls -/

namespace Neighborhoods

/-- Put vectors in the places of handles, one after the other. -/
def putEach (N : Neighborhoods α) : List (Handle × RatingVector α) → Neighborhoods α
  | [] => N
  | put :: rest => (N.putVector put.1 put.2).putEach rest

@[simp] theorem byItem_putEach (N : Neighborhoods α) (puts : List (Handle × RatingVector α)) :
    (N.putEach puts).byItem = N.byItem := by
  induction puts generalizing N with
  | nil => rfl
  | cons put rest ih => rw [putEach, ih, byItem_putVector]

@[simp] theorem vectorCount_putEach (N : Neighborhoods α)
    (puts : List (Handle × RatingVector α)) : (N.putEach puts).vectorCount = N.vectorCount := by
  induction puts generalizing N with
  | nil => rfl
  | cons put rest ih => rw [putEach, ih, vectorCount_putVector]

theorem vector?_putVector_ne (N : Neighborhoods α) {handle other : Handle} (v : RatingVector α)
    (h : other ≠ handle) : (N.putVector handle v).vector? other = N.vector? other := by
  rw [vector?_putVector, if_neg h]

theorem vector?_putVector_self {N : Neighborhoods α} {handle : Handle} (v : RatingVector α)
    (h : (N.vector? handle).isSome) : (N.putVector handle v).vector? handle = some v := by
  obtain ⟨w, hw⟩ := Option.isSome_iff_exists.mp h
  rw [vector?_putVector, if_pos rfl, hw]
  rfl

/-- A write keeps every handle that resolves. -/
theorem isSome_vector?_putVector (N : Neighborhoods α) (handle other : Handle)
    (v : RatingVector α) :
    ((N.putVector handle v).vector? other).isSome = (N.vector? other).isSome := by
  rw [vector?_putVector]
  split
  · rename_i heq
    rw [heq, Option.isSome_map]
  · rfl

/-- Writes leave the vectors of other handles alone. -/
theorem vector?_putEach_of_not_mem {N : Neighborhoods α} {puts : List (Handle × RatingVector α)}
    {handle : Handle} (h : handle ∉ puts.map Prod.fst) :
    (N.putEach puts).vector? handle = N.vector? handle := by
  induction puts generalizing N with
  | nil => rfl
  | cons put rest ih =>
    rw [List.map_cons, List.mem_cons, not_or] at h
    rw [putEach, ih h.2, vector?_putVector_ne N put.2 h.1]

/-- **Writes under distinct handles are all there afterwards.** -/
theorem map_vector?_putEach {N : Neighborhoods α} {handles : List Handle}
    {vs : List (RatingVector α)} (hnodup : handles.Nodup)
    (hthere : ∀ handle ∈ handles, (N.vector? handle).isSome)
    (hlen : handles.length = vs.length) :
    handles.map (N.putEach (handles.zip vs)).vector? = vs.map some := by
  induction handles generalizing N vs with
  | nil =>
    cases vs with
    | nil => rfl
    | cons v vs => simp at hlen
  | cons handle rest ih =>
    cases vs with
    | nil => simp at hlen
    | cons v vs =>
      obtain ⟨hnew, hrest⟩ := List.nodup_cons.mp hnodup
      have hfirst : handle ∉ (rest.zip vs).map Prod.fst := by
        rw [List.map_fst_zip (by simpa using Nat.le_of_eq hlen)]
        exact hnew
      have hthere' : ∀ other ∈ rest, ((N.putVector handle v).vector? other).isSome := by
        intro other hother
        rw [isSome_vector?_putVector]
        exact hthere other (List.mem_cons_of_mem _ hother)
      rw [List.zip_cons_cons, putEach, List.map_cons, List.map_cons,
        ih hrest hthere' (by simpa using hlen), vector?_putEach_of_not_mem hfirst,
        vector?_putVector_self v (hthere handle List.mem_cons_self)]

end Neighborhoods

/-! ## 3. A pass is its calls, then its writes -/

/-- The calls of a work list, on the vectors as they are. -/
def Neighborhoods.callsOf (N : Neighborhoods α) (pending : List (Int × Handle)) :
    List (Int × RatingVector α) :=
  pending.filterMap fun p => (N.vector? p.2).map (Prod.mk p.1)

theorem Neighborhoods.callsOf_putVector {N : Neighborhoods α} {handle : Handle}
    {pending : List (Int × Handle)} (v : RatingVector α) (h : handle ∉ pending.map Prod.snd) :
    (N.putVector handle v).callsOf pending = N.callsOf pending := by
  refine List.filterMap_congr ?_
  intro p hp
  have hne : p.2 ≠ handle := fun heq => h (heq ▸ List.mem_map_of_mem hp)
  rw [vector?_putVector_ne N v hne]

namespace Normalizer

variable {nz : Normalizer σ τ α} {p : Int × Handle} {N : Neighborhoods α} {v v' : RatingVector α}
  {s s' : σ}

theorem normalizeEach_cons_ok (rest : List (Int × Handle)) (hv : N.vector? p.2 = some v)
    (hcall : nz.normalize p.1 v s = ((.ok (), v'), s')) :
    nz.normalizeEach (p :: rest) N s = nz.normalizeEach rest (N.putVector p.2 v') s' := by
  have hvector : N.vector p.2 = .ok v := by rw [Neighborhoods.vector, hv]
  rw [normalizeEach, hvector]
  simp only [bind, StateT.bind, hcall]

theorem normalizeEach_cons_error {e : RequestError} (rest : List (Int × Handle))
    (hv : N.vector? p.2 = some v) (hcall : nz.normalize p.1 v s = ((.error e, v'), s')) :
    nz.normalizeEach (p :: rest) N s = ((.error e, N.putVector p.2 v'), s') := by
  have hvector : N.vector p.2 = .ok v := by rw [Neighborhoods.vector, hv]
  rw [normalizeEach, hvector]
  simp only [bind, StateT.bind, hcall]
  rfl

/-- **A pass is its calls, then its writes.**  The vectors of later handles are still as they
were when their calls come, because no handle comes twice. -/
theorem normalizeEach_eq (nz : Normalizer σ τ α) {pending : List (Int × Handle)}
    {N : Neighborhoods α} (s : σ) (hnodup : (pending.map Prod.snd).Nodup)
    (hthere : ∀ p ∈ pending, (N.vector? p.2).isSome) :
    nz.normalizeEach pending N s =
      (((nz.callEach (N.callsOf pending) s).1.1,
        N.putEach ((pending.map Prod.snd).zip (nz.callEach (N.callsOf pending) s).1.2)),
        (nz.callEach (N.callsOf pending) s).2) := by
  induction pending generalizing N s with
  | nil => rfl
  | cons p rest ih =>
    obtain ⟨hnew, hrest⟩ := List.nodup_cons.mp hnodup
    obtain ⟨v, hv⟩ := Option.isSome_iff_exists.mp (hthere p List.mem_cons_self)
    have hcalls : N.callsOf (p :: rest) = (p.1, v) :: N.callsOf rest := by
      simp [Neighborhoods.callsOf, hv]
    obtain ⟨⟨outcome, v'⟩, s', hcall⟩ : ∃ a s', nz.normalize p.1 v s = (a, s') := ⟨_, _, rfl⟩
    rw [hcalls, List.map_cons]
    cases outcome with
    | error e =>
      rw [normalizeEach_cons_error rest hv hcall,
        callEach_cons_error (p.1, v) _ hcall, List.zip_cons_cons, List.zip_nil_right]
      rfl
    | ok _ =>
      have hthere' : ∀ q ∈ rest, ((N.putVector p.2 v').vector? q.2).isSome := by
        intro q hq
        rw [Neighborhoods.isSome_vector?_putVector]
        exact hthere q (List.mem_cons_of_mem _ hq)
      rw [normalizeEach_cons_ok rest hv hcall, ih s' hrest hthere',
        Neighborhoods.callsOf_putVector v' hnew, callEach_cons_ok (p.1, v) _ hcall,
        List.zip_cons_cons]
      rfl

/-! ## 4. The pass over all entries -/

/-- **The pass over neighborhoods** makes the calls that the handles met are owed, and puts the
answers in the places of these handles. -/
theorem normalizeNeighbors_eq (nz : Normalizer σ τ α) (N : Neighborhoods α) (s : σ) :
    nz.normalizeNeighbors N s =
      (((nz.callEach N.firstCalls s).1.1.map fun () => N.handlesMet.length,
        N.putEach (N.handlesMet.zip (nz.callEach N.firstCalls s).1.2)),
        (nz.callEach N.firstCalls s).2) := by
  have hnodup : (N.referenced.map Prod.snd).Nodup := by
    rw [N.handles_referenced]
    exact N.nodup_handlesMet
  have hthere : ∀ p ∈ N.referenced, (N.vector? p.2).isSome := by
    intro p hp
    exact Neighborhoods.isSome_vector?_of_met (N.handles_referenced ▸ List.mem_map_of_mem hp)
  have hcalls : N.callsOf N.referenced = N.firstCalls :=
    N.firstCalls_eq_filterMap_referenced.symm
  have hlength : N.referenced.length = N.handlesMet.length := by
    rw [← N.handles_referenced, List.length_map]
  rw [normalizeNeighbors]
  simp only [bind, StateT.bind, normalizeEach_eq nz s hnodup hthere, hcalls, hlength,
    N.handles_referenced]
  rfl

theorem runFrom_normalized (nz : Normalizer σ τ α) (N : Neighborhoods α) (s : σ) :
    (nz.normalized N).runFrom s =
      ((nz.callEach N.firstCalls s).1.1.map fun () =>
        N.putEach (N.handlesMet.zip (nz.callEach N.firstCalls s).1.2),
        (nz.callEach N.firstCalls s).2) := by
  rw [normalized, CallM.runFrom, ExceptT.mk]
  simp only [bind, StateT.bind, normalizeNeighbors_eq]
  cases (nz.callEach N.firstCalls s).1.1 <;> rfl

end Normalizer

namespace Neighborhoods

/-- What a complete pass leaves of `N`: the answers in the places of the handles met, and
everything else as it was. -/
structure NormalizedOnce (N N' : Neighborhoods α) (answers : List (RatingVector α)) : Prop where
  met : N.handlesMet.map N'.vector? = answers.map some
  unmet : ∀ handle, handle ∉ N.handlesMet → N'.vector? handle = N.vector? handle
  entries : ∀ item, N'.neighbors item = N.neighbors item
  items : N'.items = N.items
  count : N'.vectorCount = N.vectorCount

theorem normalizedOnce_putEach (N : Neighborhoods α) {answers : List (RatingVector α)}
    (hlen : answers.length = N.handlesMet.length) :
    NormalizedOnce N (N.putEach (N.handlesMet.zip answers)) answers := by
  refine ⟨map_vector?_putEach N.nodup_handlesMet (fun _ => isSome_vector?_of_met) hlen.symm,
    ?_, ?_, ?_, ?_⟩
  · intro handle h
    refine vector?_putEach_of_not_mem ?_
    rw [List.map_fst_zip (Nat.le_of_eq hlen.symm)]
    exact h
  · intro item
    rw [neighbors, neighbors, byItem_putEach]
  · rw [items, items, byItem_putEach]
  · exact vectorCount_putEach N _

/-- Handles with equal contents have calls of their own. -/
theorem exists_two_firstCalls {N : Neighborhoods α} {h₁ h₂ : Handle} (hm₁ : h₁ ∈ N.handlesMet)
    (hm₂ : h₂ ∈ N.handlesMet) (hne : h₁ ≠ h₂) (heq : N.vector? h₁ = N.vector? h₂) :
    ∃ (i j : Nat) (u₁ u₂ : Int) (v : RatingVector α), i ≠ j ∧
      N.firstCalls[i]? = some (u₁, v) ∧ N.firstCalls[j]? = some (u₂, v) := by
  obtain ⟨u₁, v₁, -, hv₁, hc₁⟩ := exists_firstCall hm₁
  obtain ⟨u₂, v₂, -, hv₂, hc₂⟩ := exists_firstCall hm₂
  obtain ⟨i, hi⟩ := List.getElem?_of_mem hm₁
  obtain ⟨j, hj⟩ := List.getElem?_of_mem hm₂
  have hv : v₁ = v₂ := by rwa [hv₁, hv₂, Option.some.injEq] at heq
  refine ⟨i, j, u₁, u₂, v₁, ?_, getElem?_firstCalls hi hc₁, hv ▸ getElem?_firstCalls hj hc₂⟩
  rintro rfl
  exact hne (Option.some.inj (hi.symm.trans hj))

end Neighborhoods

/-- **Every vector that an entry points at is normalized exactly once.**  If no call is refused,
the journal grows by one call for each handle met, in the order of first meeting, for the user of
that first entry and with the vector as it was; the vectors behind these handles are the answers,
everything else stays, and the pass answers with the number of handles met.  Two handles with
equal contents have two calls. -/
theorem Normalizer.normalizeNeighbors_once (nz : Normalizer σ τ α) (N : Neighborhoods α) (s : σ)
    (log : List (JournalEntry α)) (hok : (nz.callEach N.firstCalls s).1.1 = .ok ()) :
    ∃ N', nz.journaled.normalizeNeighbors N (s, log) =
        ((.ok N.handlesMet.length, N'), ((nz.callEach N.firstCalls s).2,
          log ++ N.firstCalls.map fun call => .normalize call.1 call.2)) ∧
      N.NormalizedOnce N' (nz.callEach N.firstCalls s).1.2 ∧
      N.handlesMet.Nodup ∧
      (∀ handle, handle ∈ N.handlesMet ↔ ∃ item, ∃ n ∈ N.neighbors item, n.ratings = handle) ∧
      N.handlesMet.map N.firstCall? = N.firstCalls.map some ∧
      ∀ h₁ ∈ N.handlesMet, ∀ h₂ ∈ N.handlesMet, h₁ ≠ h₂ → N.vector? h₁ = N.vector? h₂ →
        ∃ (i j : Nat) (u₁ u₂ : Int) (v : RatingVector α), i ≠ j ∧
          N.firstCalls[i]? = some (u₁, v) ∧ N.firstCalls[j]? = some (u₂, v) := by
  have hlen : (nz.callEach N.firstCalls s).1.2.length = N.handlesMet.length := by
    rw [length_callEach hok, N.length_firstCalls]
  refine ⟨N.putEach (N.handlesMet.zip (nz.callEach N.firstCalls s).1.2), ?_,
    N.normalizedOnce_putEach hlen, N.nodup_handlesMet, fun _ => Neighborhoods.mem_handlesMet_iff,
    N.map_firstCall?, ?_⟩
  · rw [normalizeNeighbors_eq, callEach_journaled, hok, length_callEach hok, List.take_length]
    rfl
  · intro h₁ hm₁ h₂ hm₂ hne heq
    exact Neighborhoods.exists_two_firstCalls hm₁ hm₂ hne heq

/-- Neighbors 7 and 8 share a vector, neighbor 9 has one with the same contents, and nobody points
at the last. -/
def sharedAndEqual : Neighborhoods Float where
  vectors := #[.ofPairs [(1, 4.0), (2, 3.0)], .ofPairs [(1, 4.0), (2, 3.0)], .ofPairs [(1, 5.0)]]
  byItem := .ofList [(2, [⟨8, 0.5, ⟨0⟩⟩]), (1, [⟨7, 1.0, ⟨0⟩⟩, ⟨9, -0.5, ⟨1⟩⟩])]
  resolves := by decide
  nonempty := by decide

/-- Numbers its calls, and writes the number over every value. -/
def numbering : Normalizer Nat Unit Float where
  normalize _ v := fun calls => ((.ok (), v.mapEntries fun _ _ => Float.ofNat calls), calls + 1)
  transformation _ _ := pure ()

theorem normalizeNeighbors_once_of_shared :
    (numbering.callEach sharedAndEqual.firstCalls 0).1.1 = .ok () ∧
      ∃ N', numbering.journaled.normalizeNeighbors sharedAndEqual (0, []) =
          ((.ok 2, N'), (2, [.normalize 7 (.ofPairs [(1, 4.0), (2, 3.0)]),
            .normalize 9 (.ofPairs [(1, 4.0), (2, 3.0)])])) ∧
        [⟨0⟩, ⟨1⟩].map N'.vector? =
          [some (.ofPairs [(1, 0.0), (2, 0.0)]), some (.ofPairs [(1, 1.0), (2, 1.0)])] ∧
        N'.vector? ⟨2⟩ = some (.ofPairs [(1, 5.0)]) := by
  have hok : (numbering.callEach sharedAndEqual.firstCalls 0).1.1 = .ok () := by decide +kernel
  have hmet : sharedAndEqual.handlesMet = [⟨0⟩, ⟨1⟩] := by decide +kernel
  obtain ⟨N', hrun, hleft, -⟩ := numbering.normalizeNeighbors_once sharedAndEqual 0 [] hok
  refine ⟨hok, N', hrun.trans ?_, ?_, ?_⟩
  · have hcalls : sharedAndEqual.firstCalls = [(7, .ofPairs [(1, 4.0), (2, 3.0)]),
        (9, .ofPairs [(1, 4.0), (2, 3.0)])] := by decide +kernel
    rw [hmet, hcalls]
    rfl
  · rw [← hmet, hleft.met]
    decide +kernel
  · rw [hleft.unmet ⟨2⟩ (by rw [hmet]; decide)]
    decide +kernel

end PeerRatings
