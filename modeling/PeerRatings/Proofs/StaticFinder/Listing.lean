/-
# What the static finder lists

The static finder goes through the items of a request and lists the chosen candidates of each.
On the way it keeps a record of the handles it has given out, so that a candidate who is listed
under many items is copied once.  That record is not part of the answer, but every fact about the
answer goes through it.

The invariant of the gathering (`Gathered`) says what the record means: a recorded handle names a
copy of the user's row, no two users have the same handle, every entry carries the handle recorded
for its user, and every stored vector has been listed.  One step keeps it (`Gathered.enlist`) and
only ever adds to the record (`Extends`), so a run over candidates and then over items keeps it
too.  With it `addNeighbor` is never refused.

`exists_search` reads the answer off the last gathering, and `Answers` is what it is: for each
item of the request, the eligible candidates in their order, each with the row in the table.
-/
import PeerRatings.Proofs.Neighborhoods.Building
import PeerRatings.Proofs.Prediction.Handles
import PeerRatings.StaticFinder.Search

namespace PeerRatings.StaticFinder

/-! ## 1. What the record of handles means -/

/-- The record of a gathering names copies of `rows`, one for each user, and entries carry what it
names for their users. -/
structure Recorded (rows : Int → Option (RatingVector Float)) (g : Gathering) : Prop where
  stored : ∀ user handle, g.handles.get? user = some handle →
    ∃ v, rows user = some v ∧ g.found.vector? handle = some v
  injective : ∀ user user' handle, g.handles.get? user = some handle →
    g.handles.get? user' = some handle → user = user'
  carried : ∀ item, ∀ n ∈ g.found.neighbors item, g.handles.get? n.user = some n.ratings

/-- The invariant of a gathering: its record is right, and every stored vector is listed. -/
structure Gathered (rows : Int → Option (RatingVector Float)) (g : Gathering) : Prop
    extends Recorded rows g where
  listed : ∀ i < g.found.vectorCount, ∃ item, ∃ n ∈ g.found.neighbors item, n.ratings = ⟨i⟩

/-- A later gathering has recorded what an earlier one has. -/
def Extends (g' g : Gathering) : Prop :=
  ∀ user handle, g.handles.get? user = some handle → g'.handles.get? user = some handle

theorem Extends.trans {g'' g' g : Gathering} (h' : Extends g'' g') (h : Extends g' g) :
    Extends g'' g := fun user handle hget => h' user handle (h user handle hget)

/-- An entry is that of a candidate, with the handle recorded for the candidate. -/
def EntryOf (g : Gathering) (c : Candidate) (n : Neighbor Float) : Prop :=
  n.user = c.user ∧ n.similarity = c.similarity ∧ g.handles.get? c.user = some n.ratings

theorem EntryOf.extend {g' g : Gathering} (h : Extends g' g) {c : Candidate} {n : Neighbor Float}
    (hn : EntryOf g c n) : EntryOf g' c n :=
  ⟨hn.1, hn.2.1, h _ _ hn.2.2⟩

theorem gathered_empty (rows : Int → Option (RatingVector Float)) :
    Gathered rows Gathering.empty where
  stored user handle h := by simp [Gathering.empty] at h
  injective user user' handle h := by simp [Gathering.empty] at h
  carried item n hn := by simp [Gathering.empty, Neighborhoods.neighbors, Neighborhoods.empty] at hn
  listed i hi := by simp [Gathering.empty, Neighborhoods.vectorCount, Neighborhoods.empty] at hi

variable {rows : Int → Option (RatingVector Float)} {g : Gathering}

/-! ## 2. One candidate -/

/-- Copying a row for a new user keeps the record right: the handle is fresh. -/
theorem Recorded.addVector (h : Recorded rows g) {user : Int} {v : RatingVector Float}
    (hrow : rows user = some v) (hnew : g.handles.get? user = none) :
    Recorded rows ⟨(g.found.addVector v).2, g.handles.insert user (g.found.addVector v).1⟩ := by
  have hfresh : ∀ other handle, g.handles.get? other = some handle →
      handle ≠ (g.found.addVector v).1 := by
    rintro other handle hget rfl
    obtain ⟨w, -, hw⟩ := h.stored _ _ hget
    exact absurd (Array.getElem?_eq_some_iff.mp hw).1 (Nat.lt_irrefl _)
  refine ⟨?_, ?_, ?_⟩
  · intro other handle hget
    rw [IdMap.get?_insert] at hget
    split at hget
    · rename_i heq
      obtain rfl := Option.some.inj hget
      exact ⟨v, heq ▸ hrow, g.found.vector?_addVector_self v⟩
    · obtain ⟨w, hw, hvec⟩ := h.stored _ _ hget
      exact ⟨w, hw, Neighborhoods.vector?_addVector_of_some v hvec⟩
  · intro other other' handle hget hget'
    rw [IdMap.get?_insert] at hget hget'
    split at hget <;> split at hget'
    · rename_i heq heq'
      exact heq.trans heq'.symm
    · exact absurd (Option.some.inj hget).symm (hfresh _ _ hget')
    · exact absurd (Option.some.inj hget').symm (hfresh _ _ hget)
    · exact h.injective _ _ _ hget hget'
  · intro item n hn
    have hcarried := h.carried item n hn
    have hne : n.user ≠ user := by
      rintro rfl
      simp [hnew] at hcarried
    rw [IdMap.get?_insert_ne _ _ hne]
    exact hcarried

/-- **A candidate has a handle**: the one on record, or else that of a new copy. -/
theorem Recorded.handleFor (h : Recorded rows g) {c : Candidate}
    (hrow : rows c.user = some c.ratings) :
    Recorded rows (g.handleFor c).2 ∧ Extends (g.handleFor c).2 g ∧
      (g.handleFor c).2.handles.get? c.user = some (g.handleFor c).1 ∧
      (∀ k, (g.handleFor c).2.found.neighbors k = g.found.neighbors k) ∧
      ∀ i < (g.handleFor c).2.found.vectorCount,
        i < g.found.vectorCount ∨ (g.handleFor c).1 = ⟨i⟩ := by
  cases hget : g.handles.get? c.user with
  | some handle =>
    rw [Gathering.handleFor, hget]
    exact ⟨h, fun _ _ hold => hold, hget, fun _ => rfl, fun i hi => .inl hi⟩
  | none =>
    rw [Gathering.handleFor, hget]
    refine ⟨h.addVector hrow hget, ?_, IdMap.get?_insert_self .., fun _ => rfl, ?_⟩
    · intro user handle hold
      have hne : user ≠ c.user := by
        rintro rfl
        simp [hget] at hold
      exact (IdMap.get?_insert_ne _ _ hne).trans hold
    · intro i hi
      rw [Neighborhoods.vectorCount_addVector] at hi
      rcases Nat.lt_succ_iff_lt_or_eq.mp hi with hi | rfl
      · exact .inl hi
      · exact .inr rfl

/-- **One step.**  A candidate is listed behind the others of the item, with the handle on
record. -/
theorem Gathered.enlist (h : Gathered rows g) (item : Int) {c : Candidate}
    (hrow : rows c.user = some c.ratings) :
    ∃ g' n, g.enlist item c = .ok g' ∧ Gathered rows g' ∧ Extends g' g ∧ EntryOf g' c n ∧
      ∀ k, g'.found.neighbors k = g.found.neighbors k ++ if k = item then [n] else [] := by
  obtain ⟨hrec, hext, hhandle, hkept, hcount⟩ := h.toRecorded.handleFor hrow
  generalize hfor : g.handleFor c = p at hrec hext hhandle hkept hcount
  obtain ⟨handle, g₁⟩ := p
  obtain ⟨v, -, hv⟩ := hrec.stored _ _ hhandle
  obtain ⟨N', hadd, hvectors, hentries⟩ :=
    g₁.found.exists_addNeighbor (n := ⟨c.user, c.similarity, handle⟩) item hv
  have hall : ∀ k, N'.neighbors k = g.found.neighbors k ++
      if k = item then [⟨c.user, c.similarity, handle⟩] else [] := by
    intro k
    rw [hentries, hkept]
  refine ⟨⟨N', g₁.handles⟩, ⟨c.user, c.similarity, handle⟩, ?_, ⟨⟨?_, hrec.injective, ?_⟩, ?_⟩,
    hext, ⟨rfl, rfl, hhandle⟩, hall⟩
  · rw [Gathering.enlist, hfor]
    simp only [hadd]
    rfl
  · intro user other hget
    rw [Neighborhoods.vector?_congr hvectors]
    exact hrec.stored user other hget
  · intro k n hn
    rw [hentries] at hn
    rcases List.mem_append.mp hn with hn | hn
    · exact hrec.carried k n hn
    · split at hn
      · rw [List.mem_singleton.mp hn]
        exact hhandle
      · simp at hn
  · intro i hi
    have hsize : N'.vectorCount = g₁.found.vectorCount := congrArg Array.size hvectors
    rcases hcount i (hsize ▸ hi) with hold | rfl
    · obtain ⟨k, n, hn, hi⟩ := h.listed i hold
      exact ⟨k, n, by rw [hall]; exact List.mem_append_left _ hn, hi⟩
    · exact ⟨item, ⟨c.user, c.similarity, ⟨i⟩⟩, by rw [hall, if_pos rfl]; simp, rfl⟩

/-! ## 3. Candidates of an item, then items -/

/-- A run over candidates lists them in their order, and touches no other item. -/
theorem Gathered.enlistAll (h : Gathered rows g) (item : Int) {cs : List Candidate}
    (hrows : ∀ c ∈ cs, rows c.user = some c.ratings) :
    ∃ g' ns, Gathering.enlistAll item g cs = .ok g' ∧ Gathered rows g' ∧ Extends g' g ∧
      List.Forall₂ (EntryOf g') cs ns ∧
      ∀ k, g'.found.neighbors k = g.found.neighbors k ++ if k = item then ns else [] := by
  induction cs generalizing g with
  | nil => exact ⟨g, [], rfl, h, fun _ _ hget => hget, .nil, fun k => by simp⟩
  | cons c rest ih =>
    obtain ⟨g₁, n, hstep, h₁, hext₁, hn, hall₁⟩ := h.enlist item (hrows c List.mem_cons_self)
    obtain ⟨g', ns, hrun, h', hext', hns, hall'⟩ :=
      ih h₁ fun d hd => hrows d (List.mem_cons_of_mem _ hd)
    refine ⟨g', n :: ns, ?_, h', hext'.trans hext₁, .cons (hn.extend hext') hns, ?_⟩
    · rw [Gathering.enlistAll, hstep]
      exact hrun
    · intro k
      rw [hall', hall₁]
      by_cases hk : k = item <;> simp [hk]

/-- A run over items lists what was chosen for each of them. -/
theorem Gathered.enlistItems (h : Gathered rows g) {choose : Int → List Candidate}
    (hrows : ∀ item, ∀ c ∈ choose item, rows c.user = some c.ratings) {items : List Int}
    (hnodup : items.Nodup) (hblank : ∀ item ∈ items, g.found.neighbors item = []) :
    ∃ g', Gathering.enlistItems choose g items = .ok g' ∧ Gathered rows g' ∧ Extends g' g ∧
      (∀ k, k ∉ items → g'.found.neighbors k = g.found.neighbors k) ∧
      ∀ k ∈ items, List.Forall₂ (EntryOf g') (choose k) (g'.found.neighbors k) := by
  induction items generalizing g with
  | nil => exact ⟨g, rfl, h, fun _ _ hget => hget, fun _ _ => rfl, by simp⟩
  | cons item rest ih =>
    obtain ⟨hnew, hrest⟩ := List.nodup_cons.mp hnodup
    obtain ⟨g₁, ns, hstep, h₁, hext₁, hns, hall₁⟩ := h.enlistAll item (hrows item)
    have hblank₁ : ∀ k ∈ rest, g₁.found.neighbors k = [] := by
      intro k hk
      have hne : k ≠ item := by
        rintro rfl
        exact hnew hk
      rw [hall₁, if_neg hne, hblank k (List.mem_cons_of_mem _ hk), List.append_nil]
    obtain ⟨g', hrun, h', hext', hothers, hlisted⟩ := ih h₁ hrest hblank₁
    refine ⟨g', ?_, h', hext'.trans hext₁, ?_, ?_⟩
    · rw [Gathering.enlistItems, hstep]
      exact hrun
    · intro k hk
      rw [List.mem_cons, not_or] at hk
      rw [hothers k hk.2, hall₁, if_neg hk.1, List.append_nil]
    · intro k hk
      rcases List.mem_cons.mp hk with rfl | hk
      · -- what later items list leaves this item alone, and what it was given stays on record
        rw [hothers k hnew, hall₁, if_pos rfl, hblank k List.mem_cons_self, List.nil_append]
        exact hns.imp fun _ _ hn => hn.extend hext'
      · exact hlisted k hk

/-! ## 4. The answer to a request -/

/-- An entry has the user, the similarity and the ratings of a candidate. -/
def VoteOf (N : Neighborhoods Float) (c : Candidate) (n : Neighbor Float) : Prop :=
  n.user = c.user ∧ n.similarity = c.similarity ∧ N.vector? n.ratings = some c.ratings

/-- `N` lists for each item the chosen candidates, with one copy of the row of each user listed. -/
structure Answers (choose : Int → List Candidate) (items : ItemSet) (N : Neighborhoods Float) :
    Prop where
  votes : ∀ item ∈ items.keys, List.Forall₂ (VoteOf N) (choose item) (N.neighbors item)
  others : ∀ item, item ∉ items.keys → N.neighbors item = []
  shared : ∀ n ∈ N.allNeighbors, ∀ m ∈ N.allNeighbors, n.ratings = m.ratings ↔ n.user = m.user
  referenced : ∀ i < N.vectorCount, ∃ n ∈ N.allNeighbors, n.ratings = ⟨i⟩

theorem Gathered.answers (h : Gathered rows g) {choose : Int → List Candidate} {items : ItemSet}
    (hrows : ∀ item, ∀ c ∈ choose item, rows c.user = some c.ratings)
    (hvotes : ∀ k ∈ items.keys, List.Forall₂ (EntryOf g) (choose k) (g.found.neighbors k))
    (hothers : ∀ k, k ∉ items.keys → g.found.neighbors k = []) :
    Answers choose items g.found := by
  refine ⟨?_, hothers, ?_, ?_⟩
  · intro item hitem
    refine (forall₂_and_mem (hvotes item hitem)).imp ?_
    rintro c n ⟨⟨huser, hsim, hget⟩, hc, -⟩
    obtain ⟨v, hrow, hv⟩ := h.stored _ _ hget
    rw [hrows item c hc, Option.some.injEq] at hrow
    exact ⟨huser, hsim, hrow ▸ hv⟩
  · intro n hn m hm
    obtain ⟨i, hi⟩ := Neighborhoods.mem_allNeighbors_iff.mp hn
    obtain ⟨j, hj⟩ := Neighborhoods.mem_allNeighbors_iff.mp hm
    have hgetn := h.carried i n hi
    have hgetm := h.carried j m hj
    constructor
    · intro heq
      exact h.injective _ _ _ hgetn (heq ▸ hgetm)
    · intro heq
      rw [heq] at hgetn
      exact Option.some.inj (hgetn.symm.trans hgetm)
  · intro i hi
    obtain ⟨item, n, hn, hi⟩ := h.listed i hi
    exact ⟨n, Neighborhoods.mem_allNeighbors_iff.mpr ⟨item, hn⟩, hi⟩

theorem row?_of_mem_candidates {f : StaticFinder} {user : Int} {c : Candidate}
    (h : c ∈ f.candidates user) : f.table.row? c.user = some c.ratings := by
  obtain ⟨e, -, he⟩ := List.mem_filterMap.mp h
  split at he
  · obtain ⟨v, hv, rfl⟩ := Option.map_eq_some_iff.mp he
    exact hv
  · simp at he

theorem mem_of_mem_eligible {f : StaticFinder} {cs : List Candidate} {item : Int} {c : Candidate}
    (h : c ∈ f.eligible cs item) : c ∈ cs ∧ c.ratings.contains item = true := by
  have hsorted := List.mem_of_mem_take h
  exact List.mem_filter.mp ((Sorting.perm_sorted _).mem_iff.mp hsorted)

/-- **The static finder answers every request** with the eligible candidates of each item. -/
theorem exists_search (f : StaticFinder) (user : Int) (scope : Option ItemSet) :
    ∃ N, f.search user scope = .ok N ∧
      Answers (f.eligible (f.candidates user)) (itemsFor (f.candidates user) scope) N := by
  have hrows : ∀ item, ∀ c ∈ f.eligible (f.candidates user) item,
      f.table.row? c.user = some c.ratings := by
    intro item c hc
    exact row?_of_mem_candidates (mem_of_mem_eligible hc).1
  have hnodup : (itemsFor (f.candidates user) scope).keys.Nodup :=
    (IdMap.keys_ascending _).imp Int.ne_of_lt
  obtain ⟨g, hrun, h, -, hothers, hvotes⟩ :=
    (gathered_empty f.table.row?).enlistItems hrows hnodup fun _ _ => rfl
  refine ⟨g.found, ?_, h.answers hrows hvotes fun k hk => hothers k hk⟩
  rw [search]
  simp only [hrun]
  rfl

/-- Somebody is listed for every item that a candidate rated, since the limit is positive. -/
theorem eligible_ne_nil {f : StaticFinder} {cs : List Candidate} {item : Int} {c : Candidate}
    (hc : c ∈ cs) (hitem : c.ratings.contains item = true) : f.eligible cs item ≠ [] := by
  have hmem : c ∈ Sorting.sorted Candidate.notAfter (cs.filter fun c => c.ratings.contains item) :=
    (Sorting.perm_sorted _).mem_iff.mpr (List.mem_filter.mpr ⟨hc, hitem⟩)
  rw [eligible, Ne, List.take_eq_nil_iff, not_or]
  exact ⟨Nat.ne_of_gt f.maxNeighbors_pos, List.ne_nil_of_mem hmem⟩

end PeerRatings.StaticFinder
