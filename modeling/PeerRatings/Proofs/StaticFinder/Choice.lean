/-
# Whom the static finder chooses

The finder filters a row of similarities, sorts the candidates of an item stably and cuts the
list.  Here its answer is described without any of that: who is a candidate (`IsCandidate`), who
comes before whom (`Candidate.Closer`), and that each item of the request gets the first of the
candidates who rated it (`FirstIn`).

Two things have to be said about the order.  The sort compares places of magnitudes in the total
order of doubles; recorded similarities are finite, so that is comparing magnitudes.  And it is an
order without ties, since users differ.

What is said about handles is read off the answer's structure (`Answers`): one copy of the stored
row for each user who is listed anywhere, and no other vector.
-/
import Mathlib.Data.Finset.Card
import PeerRatings.Proofs.Arithmetic.Doubles
import PeerRatings.Proofs.Selection
import PeerRatings.Proofs.StaticFinder.Listing

namespace PeerRatings

/-! ## 1. Candidates and their order -/

/-- `a` comes before `b`: a similarity of larger magnitude, or the same magnitude and a smaller
user. -/
def Candidate.Closer (a b : Candidate) : Prop :=
  b.similarity.abs < a.similarity.abs ∨ a.similarity.abs = b.similarity.abs ∧ a.user < b.user

namespace StaticFinder

variable {σ : Type} {f : StaticFinder} {user item : Int}

/-- A candidate for a user: somebody else in the user's row of similarities, similar enough if a
least similarity is set, with the ratings in the table. -/
structure IsCandidate (f : StaticFinder) (user : Int) (c : Candidate) : Prop where
  other : c.user ≠ user
  recorded : (f.similarities.row user).get? c.user = some c.similarity
  stored : f.table.row? c.user = some c.ratings
  similar : ∀ least, f.minSimilarity? = some least → Arithmetic.numLe least c.similarity = true

theorem reaches_iff {similarity : Float} : f.reaches similarity = true ↔
    ∀ least, f.minSimilarity? = some least → Arithmetic.numLe least similarity = true := by
  unfold reaches
  cases f.minSimilarity? <;> simp

theorem mem_candidates_iff {c : Candidate} : c ∈ f.candidates user ↔ f.IsCandidate user c := by
  unfold candidates
  rw [List.mem_filterMap]
  constructor
  · rintro ⟨e, he, hc⟩
    split at hc
    · rename_i hok
      obtain ⟨ratings, hrow, rfl⟩ := Option.map_eq_some_iff.mp hc
      exact ⟨hok.1, IdMap.get?_eq_some_iff.mpr he, hrow, reaches_iff.mp hok.2⟩
    · cases hc
  · rintro ⟨hother, hrecorded, hstored, hsimilar⟩
    refine ⟨(c.user, c.similarity), IdMap.get?_eq_some_iff.mp hrecorded, ?_⟩
    rw [if_pos ⟨hother, reaches_iff.mpr hsimilar⟩, hstored]
    rfl

/-- Candidates come by ascending user. -/
theorem candidates_ascending (f : StaticFinder) (user : Int) :
    (f.candidates user).Pairwise fun a b => a.user < b.user := by
  refine List.pairwise_filterMap.mpr ((f.similarities.row user).ascending.imp ?_)
  intro d e hde a ha b hb
  split at ha
  · split at hb
    · obtain ⟨_, -, rfl⟩ := Option.map_eq_some_iff.mp ha
      obtain ⟨_, -, rfl⟩ := Option.map_eq_some_iff.mp hb
      exact hde
    · cases hb
  · cases ha

/-- A candidate's similarity is finite. -/
theorem exists_reading_of_mem {c : Candidate} (h : c ∈ f.candidates user) :
    ∃ q, reading c.similarity = .number q := by
  refine isFinite_iff.mp ?_
  have hrecorded := (mem_candidates_iff.mp h).recorded
  unfold SimilarityTable.row at hrecorded
  cases hrow : f.similarities.get? user with
  | none => simp [hrow] at hrecorded
  | some row =>
    rw [hrow, Option.getD_some] at hrecorded
    refine f.similarities_finite (user, c.user, c.similarity) ?_
    exact List.mem_flatMap.mpr ⟨(user, row), IdMap.get?_eq_some_iff.mp hrow,
      List.mem_map.mpr ⟨_, IdMap.get?_eq_some_iff.mp hrecorded, rfl⟩⟩

/-! ## 2. The choice for an item -/

/-- The candidates who rated an item, in the order in which they are listed. -/
def ranked (f : StaticFinder) (user item : Int) : List Candidate :=
  Sorting.sorted Candidate.notAfter ((f.candidates user).filter fun c => c.ratings.contains item)

theorem mem_ranked_iff {c : Candidate} :
    c ∈ f.ranked user item ↔ f.IsCandidate user c ∧ item ∈ c.ratings.keys := by
  unfold ranked
  rw [(Sorting.perm_sorted _).mem_iff, List.mem_filter, mem_candidates_iff,
    IdMap.contains_iff_mem_keys]

/-- **Sorting leaves no ties**, and places are magnitudes. -/
theorem closer_ranked (f : StaticFinder) (user item : Int) :
    (f.ranked user item).Pairwise Candidate.Closer := by
  have hcame := (candidates_ascending f user).sublist
    (List.filter_sublist (p := fun c => c.ratings.contains item))
  have hsorted : (f.ranked user item).Pairwise fun a b => a.notAfter b = true :=
    Sorting.pairwise_sorted Sorting.byKey_trans Sorting.byKey_total _
  have hstable : (f.ranked user item).Pairwise fun a b => b.notAfter a = true → a.user < b.user :=
    Sorting.stable_sorted Sorting.byKey_trans Sorting.byKey_total hcame
  refine (hsorted.and hstable).imp_of_mem ?_
  rintro a b ha hb ⟨hle, htie⟩
  obtain ⟨p, hp⟩ := exists_reading_of_mem (mem_candidates_iff.mpr (mem_ranked_iff.mp ha).1)
  obtain ⟨q, hq⟩ := exists_reading_of_mem (mem_candidates_iff.mpr (mem_ranked_iff.mp hb).1)
  rw [Candidate.notAfter_iff] at hle htie
  rcases hle with hlt | ⟨heq, huser⟩
  · exact .inl ((abs_lt_abs_iff hq hp).mpr hlt)
  · refine .inr ⟨(orderKey_injective heq).symm, ?_⟩
    rcases Int.lt_or_eq_of_le huser with hlt | hsame
    · exact hlt
    · exact htie (.inr ⟨heq.symm, hsame.ge⟩)

/-- **Of the candidates who rated an item the first are chosen.** -/
theorem firstIn_eligible (f : StaticFinder) (user item : Int) :
    FirstIn Candidate.Closer (fun c => f.IsCandidate user c ∧ item ∈ c.ratings.keys)
      f.maxNeighbors (f.eligible (f.candidates user) item) :=
  .of_take (closer_ranked f user item) fun _ => mem_ranked_iff

/-! ## 3. The answer -/

/-- The items that a request is about: those asked for, or all that some candidate rated. -/
def Asked (f : StaticFinder) (user : Int) (scope : Option ItemSet) (item : Int) : Prop :=
  scope.elim (∃ c, f.IsCandidate user c ∧ item ∈ c.ratings.keys) fun items => item ∈ items.keys

theorem mem_itemsFor_iff {scope : Option ItemSet} :
    item ∈ (itemsFor (f.candidates user) scope).keys ↔ f.Asked user scope item := by
  cases scope with
  | some items => exact Iff.rfl
  | none =>
    simp only [itemsFor, Option.getD_none, ItemSet.mem_keys_ofList, List.mem_flatMap,
      mem_candidates_iff]
    exact Iff.rfl

/-- Behind every entry there is a candidate who was chosen for the item. -/
theorem Answers.exists_chosen {choose : Int → List Candidate} {items : ItemSet}
    {N : Neighborhoods Float} (h : Answers choose items N) {n : Neighbor Float}
    (hn : n ∈ N.neighbors item) : ∃ c ∈ choose item, VoteOf N c n := by
  have hitem : item ∈ items.keys := by
    by_contra hout
    rw [h.others item hout] at hn
    cases hn
  exact exists_left_of_forall₂ (h.votes item hitem) hn

theorem card_map_eq {β γ δ : Type} [DecidableEq γ] [DecidableEq δ] {g : β → γ} {h : β → δ}
    {l : List β} (hsame : ∀ a ∈ l, ∀ b ∈ l, g a = g b ↔ h a = h b) :
    (l.map g).toFinset.card = (l.map h).toFinset.card := by
  induction l with
  | nil => rfl
  | cons a rest ih =>
    have hmem : g a ∈ (rest.map g).toFinset ↔ h a ∈ (rest.map h).toFinset := by
      simp only [List.mem_toFinset, List.mem_map]
      refine exists_congr fun b => and_congr_right fun hb => ?_
      exact hsame b (List.mem_cons_of_mem _ hb) a List.mem_cons_self
    have hrest := ih fun b hb c hc =>
      hsame b (List.mem_cons_of_mem _ hb) c (List.mem_cons_of_mem _ hc)
    simp only [List.map_cons, List.toFinset_cons, Finset.card_insert_eq_ite, hmem, hrest]

/-- There are as many vectors as users who are listed. -/
theorem Answers.vectorCount_eq {choose : Int → List Candidate} {items : ItemSet}
    {N : Neighborhoods Float} (h : Answers choose items N) :
    N.vectorCount = (N.allNeighbors.map Neighbor.user).toFinset.card := by
  have hindex : (N.allNeighbors.map fun n => n.ratings.index).toFinset =
      Finset.range N.vectorCount := by
    ext i
    simp only [List.mem_toFinset, List.mem_map, Finset.mem_range]
    constructor
    · rintro ⟨n, hn, rfl⟩
      obtain ⟨item, hitem⟩ := Neighborhoods.mem_allNeighbors_iff.mp hn
      exact N.resolves_neighbors hitem
    · intro hi
      obtain ⟨n, hn, hhandle⟩ := h.referenced i hi
      exact ⟨n, hn, congrArg Handle.index hhandle⟩
  rw [← Finset.card_range N.vectorCount, ← hindex]
  refine card_map_eq fun n hn m hm => ?_
  rw [← h.shared n hn m hm]
  refine ⟨fun heq => ?_, congrArg Handle.index⟩
  cases n with
  | mk _ _ handle =>
    cases m with
    | mk _ _ handle' =>
      cases handle
      cases handle'
      exact congrArg Handle.mk heq

/-- An entry points at a copy of the stored row of its user. -/
theorem Answers.vector_eq {f : StaticFinder} {user : Int} {items : ItemSet}
    {N : Neighborhoods Float} (h : Answers (f.eligible (f.candidates user)) items N)
    {n : Neighbor Float} (hn : n ∈ N.allNeighbors) :
    ∃ v, N.vector n.ratings = .ok v ∧ f.table.row? n.user = some v := by
  obtain ⟨item, hitem⟩ := Neighborhoods.mem_allNeighbors_iff.mp hn
  obtain ⟨c, hc, huser, -, hvector⟩ := h.exists_chosen hitem
  refine ⟨c.ratings, ?_, huser ▸ row?_of_mem_candidates (mem_of_mem_eligible hc).1⟩
  rw [Neighborhoods.vector, hvector]

/-- **What the static finder answers.**  It answers every request.  Each item that the request is
about gets the first of the candidates who rated it, by descending magnitude of similarity and
then by ascending user, each with the recorded similarity and the stored row; no other item gets
anybody.  Two entries point at the same vector exactly when they are of the same user, that vector
is the user's row in the table, and every vector is pointed at, so there are as many vectors as
users listed. -/
theorem find_firstIn (f : StaticFinder) (user : Int) (ratings : RatingVector Float)
    (scope : Option ItemSet) (s : σ) :
    ∃ N, ((f.finder : Finder σ Float).find user ratings scope).runFrom s = (.ok N, s) ∧
      (∀ item, f.Asked user scope item → ∃ chosen,
        FirstIn Candidate.Closer (fun c => f.IsCandidate user c ∧ item ∈ c.ratings.keys)
          f.maxNeighbors chosen ∧
        List.Forall₂ (VoteOf N) chosen (N.neighbors item)) ∧
      (∀ item, ¬ f.Asked user scope item → N.neighbors item = []) ∧
      (∀ n ∈ N.allNeighbors, ∀ m ∈ N.allNeighbors, n.ratings = m.ratings ↔ n.user = m.user) ∧
      (∀ n ∈ N.allNeighbors, ∃ v, N.vector n.ratings = .ok v ∧ f.table.row? n.user = some v) ∧
      (∀ i < N.vectorCount, ∃ n ∈ N.allNeighbors, n.ratings = ⟨i⟩) ∧
      N.vectorCount = (N.allNeighbors.map Neighbor.user).toFinset.card := by
  obtain ⟨N, hN, hanswers⟩ := f.exists_search user scope
  refine ⟨N, ?_, ?_, ?_, hanswers.shared, fun _ hn => hanswers.vector_eq hn,
    hanswers.referenced, hanswers.vectorCount_eq⟩
  · rw [finder, Finder.find_ofFunction, hN]
  · intro item hasked
    exact ⟨_, firstIn_eligible f user item, hanswers.votes item (mem_itemsFor_iff.mpr hasked)⟩
  · intro item hnot
    exact hanswers.others item fun hmem => hnot (mem_itemsFor_iff.mp hmem)

end StaticFinder

end PeerRatings
