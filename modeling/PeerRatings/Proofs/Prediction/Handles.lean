/-
# Handles are not seen in predictions

A handle says where a vector is stored, and nothing else about a neighborhood depends on it.  Two
neighborhoods whose entries agree in user, similarity and **contents** of the vector (`SameVote`)
give the same scores, whatever their handles are and however many vectors each of them stores.

One thing has to be known of both: entries that share a vector belong to one user
(`OneUserPerHandle`).  A shared vector is normalized once, for the first user who carries it, so
with two users on one handle the second would vote with ratings normalized for the first.

From this follows that **sharing is not seen** (`predict_eq_of_privateCopies`): giving every entry
a copy of its vector changes no prediction, although it changes the stored vectors, the handles
and the number of calls to the normalizer.
-/
import PeerRatings.Proofs.Neighborhoods.Building
import PeerRatings.Proofs.Prediction.Scores

namespace PeerRatings

variable {σ σ' τ α : Type}

/-! ## 1. Lists that agree one by one -/

theorem forall₂_and_mem {β γ : Type} {R : β → γ → Prop} {l : List β} {l' : List γ}
    (h : List.Forall₂ R l l') :
    List.Forall₂ (fun b c => R b c ∧ b ∈ l ∧ c ∈ l') l l' := by
  refine List.forall₂_iff_zip.mpr ⟨h.length_eq, ?_⟩
  intro b c hbc
  exact ⟨List.forall₂_zip h hbc, List.of_mem_zip hbc⟩

theorem exists_left_of_forall₂ {β γ : Type} {R : β → γ → Prop} {l : List β} {l' : List γ}
    (h : List.Forall₂ R l l') {c : γ} (hc : c ∈ l') : ∃ b ∈ l, R b c := by
  induction h with
  | nil => simp at hc
  | cons hbc _ ih =>
    rcases List.mem_cons.mp hc with rfl | hc
    · exact ⟨_, List.mem_cons_self, hbc⟩
    · obtain ⟨b, hb, hR⟩ := ih hc
      exact ⟨b, List.mem_cons_of_mem _ hb, hR⟩

namespace Neighborhoods

/-! ## 2. Votes up to handles -/

/-- Entries that share a vector belong to one user. -/
def OneUserPerHandle (N : Neighborhoods α) : Prop :=
  ∀ n ∈ N.allNeighbors, ∀ m ∈ N.allNeighbors, n.ratings = m.ratings → n.user = m.user

instance (N : Neighborhoods α) : Decidable N.OneUserPerHandle :=
  inferInstanceAs (Decidable (∀ n ∈ N.allNeighbors, ∀ m ∈ N.allNeighbors,
    n.ratings = m.ratings → n.user = m.user))

/-- An entry of `M` has the user, the similarity and the ratings of an entry of `N`. -/
def SameVote (N M : Neighborhoods α) (n m : Neighbor α) : Prop :=
  m.user = n.user ∧ m.similarity = n.similarity ∧ M.vector? m.ratings = N.vector? n.ratings

/-- With one user per handle, the call that a handle is owed can be read off any entry. -/
theorem OneUserPerHandle.firstCall?_eq {N : Neighborhoods α} (h : N.OneUserPerHandle) {item : Int}
    {n : Neighbor α} (hn : n ∈ N.neighbors item) :
    N.firstCall? n.ratings = (N.vector? n.ratings).map (Prod.mk n.user) := by
  obtain ⟨user, v, huser, hv, hcall⟩ :=
    exists_firstCall (mem_handlesMet_iff.mpr ⟨item, n, hn, rfl⟩)
  obtain ⟨m, hm, rfl⟩ := Option.map_eq_some_iff.mp huser
  have hratings : m.ratings = n.ratings := by simpa using List.find?_some hm
  have hmem : m ∈ N.allNeighbors := by
    rw [allNeighbors_eq]
    exact List.mem_of_find?_eq_some hm
  rw [hcall, hv, h m hmem n (mem_allNeighbors_iff.mpr ⟨item, hn⟩) hratings]
  rfl

theorem SameVote.firstCall?_eq {N M : Neighborhoods α} (hN : N.OneUserPerHandle)
    (hM : M.OneUserPerHandle) {item : Int} {n m : Neighbor α} (h : SameVote N M n m)
    (hn : n ∈ N.neighbors item) (hm : m ∈ M.neighbors item) :
    M.firstCall? m.ratings = N.firstCall? n.ratings := by
  rw [hM.firstCall?_eq hm, hN.firstCall?_eq hn, h.1, h.2.2]

section Scores

variable {N M : Neighborhoods α} (hN : N.OneUserPerHandle) (hM : M.OneUserPerHandle)
include hN hM

/-- **Scores do not see handles.** -/
theorem meanVote_eq_of_sameVotes [Arithmetic α]
    {f : Int → RatingVector α → Except RequestError Unit × RatingVector α} {item : Int}
    (h : List.Forall₂ (SameVote N M) (N.neighbors item) (M.neighbors item)) :
    meanVote (N.ratingOnce f item) (N.neighbors item) =
      meanVote (M.ratingOnce f item) (M.neighbors item) := by
  refine meanVote_congr ((forall₂_and_mem h).imp ?_)
  rintro n m ⟨hvote, hn, hm⟩
  refine ⟨hvote.2.1.symm, ?_⟩
  rw [ratingOnce, ratingOnce, hvote.firstCall?_eq hN hM hn hm]

/-- Neighborhoods with the same votes make the same calls. -/
theorem firstCalls_subset_of_sameVotes
    (h : ∀ item, List.Forall₂ (SameVote N M) (N.neighbors item) (M.neighbors item))
    {call : Int × RatingVector α} (hcall : call ∈ M.firstCalls) : call ∈ N.firstCalls := by
  obtain ⟨handle, hmet, hfirst⟩ := mem_firstCalls_iff.mp hcall
  obtain ⟨item, m, hm, rfl⟩ := mem_handlesMet_iff.mp hmet
  obtain ⟨n, hn, hvote⟩ := exists_left_of_forall₂ (h item) hm
  refine mem_firstCalls_iff.mpr ⟨n.ratings, mem_handlesMet_iff.mpr ⟨item, n, hn, rfl⟩, ?_⟩
  rw [← hvote.firstCall?_eq hN hM hn hm]
  exact hfirst

end Scores

/-- Neighborhoods with the same votes have the same items. -/
theorem items_eq_of_sameVotes {N M : Neighborhoods α}
    (h : ∀ item, List.Forall₂ (SameVote N M) (N.neighbors item) (M.neighbors item)) :
    M.items = N.items := by
  refine ItemSet.ext_mem fun item => ?_
  rw [mem_items_iff, mem_items_iff, ← List.length_pos_iff, ← List.length_pos_iff,
    (h item).length_eq]

/-! ## 3. Neighborhoods without sharing -/

/-- Add the vector of an entry of `N` to `M` once more, and list the entry with the new handle. -/
def copyEntry (N M : Neighborhoods α) (item : Int) (n : Neighbor α) :
    Except RequestError (Neighborhoods α) :=
  match N.vector n.ratings with
  | .error e => .error e
  | .ok v => (M.addVector v).2.addNeighbor item ⟨n.user, n.similarity, (M.addVector v).1⟩

/-- Copy entries of `N` one after the other, each under its item. -/
def copyEntries (N : Neighborhoods α) :
    Neighborhoods α → List (Int × Neighbor α) → Except RequestError (Neighborhoods α)
  | M, [] => .ok M
  | M, e :: rest =>
    match N.copyEntry M e.1 e.2 with
    | .error err => .error err
    | .ok M' => copyEntries N M' rest

/-- What a list of entries has for an item, in the order of the list. -/
def entriesFor (es : List (Int × Neighbor α)) (item : Int) : List (Neighbor α) :=
  (es.filter fun e => e.1 = item).map Prod.snd

/-- All entries, each with its item. -/
def listing (N : Neighborhoods α) : List (Int × Neighbor α) :=
  N.byItem.entries.flatMap fun e => e.2.map (Prod.mk e.1)

theorem entriesFor_map (k : Int) (ns : List (Neighbor α)) (item : Int) :
    entriesFor (ns.map (Prod.mk k)) item = if item = k then ns else [] := by
  rw [entriesFor, List.filter_map, List.map_map]
  by_cases hk : k = item
  · simp [Function.comp_def, hk]
  · simp [Function.comp_def, hk, Ne.symm hk]

theorem entriesFor_flatMap {entries : List (Int × List (Neighbor α))} (h : AscendingKeys entries)
    (item : Int) :
    entriesFor (entries.flatMap fun e => e.2.map (Prod.mk e.1)) item =
      (IdMap.find? item entries).getD [] := by
  induction entries with
  | nil => rfl
  | cons e rest ih =>
    obtain ⟨hlt, hrest⟩ := List.pairwise_cons.mp h
    have hsplit : entriesFor ((e :: rest).flatMap fun e => e.2.map (Prod.mk e.1)) item =
        (if item = e.1 then e.2 else []) ++ (IdMap.find? item rest).getD [] := by
      rw [← ih hrest, ← entriesFor_map, entriesFor, entriesFor, entriesFor, List.flatMap_cons,
        List.filter_append, List.map_append]
    rw [hsplit, IdMap.find?]
    by_cases hitem : item = e.1
    · -- keys ascend, so nothing further down stands for this item
      subst hitem
      simp [IdMap.find?_eq_none_of_lt hlt]
    · simp [hitem]

@[simp] theorem entriesFor_listing (N : Neighborhoods α) (item : Int) :
    entriesFor N.listing item = N.neighbors item :=
  entriesFor_flatMap N.byItem.ascending item

/-- `M` has, item by item, the votes that `entries` stand for in `N`, and no two entries of `M`
point at the same vector. -/
structure PrivateCopies (N : Neighborhoods α) (entries : Int → List (Neighbor α))
    (M : Neighborhoods α) : Prop where
  votes : ∀ item, List.Forall₂ (SameVote N M) (entries item) (M.neighbors item)
  apart : ∀ (i j : Int) (a b : Nat) (n m : Neighbor α), (M.neighbors i)[a]? = some n →
    (M.neighbors j)[b]? = some m → n.ratings = m.ratings → i = j ∧ a = b

theorem PrivateCopies.oneUserPerHandle {N M : Neighborhoods α}
    {entries : Int → List (Neighbor α)} (h : N.PrivateCopies entries M) : M.OneUserPerHandle := by
  intro n hn m hm heq
  obtain ⟨i, hi⟩ := mem_allNeighbors_iff.mp hn
  obtain ⟨j, hj⟩ := mem_allNeighbors_iff.mp hm
  obtain ⟨a, ha⟩ := List.getElem?_of_mem hi
  obtain ⟨b, hb⟩ := List.getElem?_of_mem hj
  obtain ⟨rfl, rfl⟩ := h.apart i j a b n m ha hb heq
  rw [Option.some.inj (ha.symm.trans hb)]

theorem getElem?_append_ite {β : Type} {l : List β} {x y : β} {c : Prop} [Decidable c] {a : Nat}
    (h : (l ++ if c then [x] else [])[a]? = some y) :
    l[a]? = some y ∨ c ∧ a = l.length ∧ y = x := by
  by_cases ha : a < l.length
  · rw [List.getElem?_append_left ha] at h
    exact .inl h
  · rw [List.getElem?_append_right (Nat.le_of_not_lt ha)] at h
    split at h
    · rename_i hc
      obtain ⟨hlt, rfl⟩ := List.getElem?_eq_some_iff.mp h
      simp only [List.length_singleton] at hlt
      exact .inr ⟨hc, by omega, List.getElem_singleton _⟩
    · simp at h

/-- **One more copy.**  The new handle is fresh, so the entries stay apart, and no vector that was
there changes, so the votes stay the same. -/
theorem PrivateCopies.exists_copyEntry {N M : Neighborhoods α}
    {entries : Int → List (Neighbor α)} (h : N.PrivateCopies entries M) (item : Int)
    {n : Neighbor α} {v : RatingVector α} (hv : N.vector? n.ratings = some v) :
    ∃ M', N.copyEntry M item n = .ok M' ∧
      N.PrivateCopies (fun k => entries k ++ if k = item then [n] else []) M' := by
  obtain ⟨M', hadd, hnew, hkeep, hentries⟩ :=
    M.exists_addVector_addNeighbor item n.user n.similarity v
  refine ⟨M', by rw [copyEntry, vector, hv]; exact hadd, ?_, ?_⟩
  · intro k
    have hold : List.Forall₂ (SameVote N M') (entries k) (M.neighbors k) := by
      refine (forall₂_and_mem (h.votes k)).imp ?_
      rintro p q ⟨⟨huser, hsim, hvec⟩, -, hq⟩
      obtain ⟨w, hw⟩ := M.exists_vector hq
      exact ⟨huser, hsim, by rw [hkeep _ _ hw, ← hw, hvec]⟩
    rw [hentries]
    refine List.rel_append hold ?_
    split
    · exact .cons ⟨rfl, rfl, hnew.trans hv.symm⟩ .nil
    · exact .nil
  · intro i j a b p q hp hq heq
    rw [hentries] at hp hq
    rcases getElem?_append_ite hp with hp | ⟨rfl, ha, rfl⟩
    · rcases getElem?_append_ite hq with hq | ⟨-, -, rfl⟩
      · exact h.apart i j a b p q hp hq heq
      · exact absurd heq (ne_addVector_of_mem v (List.mem_of_getElem? hp))
    · rcases getElem?_append_ite hq with hq | ⟨rfl, hb, -⟩
      · exact absurd heq.symm (ne_addVector_of_mem v (List.mem_of_getElem? hq))
      · exact ⟨rfl, ha.trans hb.symm⟩

theorem PrivateCopies.exists_copyEntries {N : Neighborhoods α} {es : List (Int × Neighbor α)}
    (hes : ∀ e ∈ es, (N.vector? e.2.ratings).isSome) {M : Neighborhoods α}
    {entries : Int → List (Neighbor α)} (h : N.PrivateCopies entries M) :
    ∃ M', N.copyEntries M es = .ok M' ∧
      N.PrivateCopies (fun k => entries k ++ entriesFor es k) M' := by
  induction es generalizing M entries with
  | nil => exact ⟨M, rfl, by simpa [entriesFor] using h⟩
  | cons e rest ih =>
    obtain ⟨v, hv⟩ := Option.isSome_iff_exists.mp (hes e List.mem_cons_self)
    obtain ⟨M', hcopy, hM'⟩ := h.exists_copyEntry e.1 hv
    obtain ⟨M'', hrun, hM''⟩ := ih (fun d hd => hes d (List.mem_cons_of_mem _ hd)) hM'
    refine ⟨M'', by rw [copyEntries, hcopy]; exact hrun, ?_⟩
    have hsplit : ∀ k, (entries k ++ if k = e.1 then [e.2] else []) ++ entriesFor rest k =
        entries k ++ entriesFor (e :: rest) k := by
      intro k
      by_cases hk : e.1 = k
      · simp [entriesFor, hk]
      · simp [entriesFor, hk, Ne.symm hk]
    simpa only [hsplit] using hM''

/-- **Neighborhoods without sharing exist**, and can be built by going through the entries in any
order that keeps the order within each item. -/
theorem exists_privateCopies {N : Neighborhoods α} {es : List (Int × Neighbor α)}
    (hes : ∀ item, entriesFor es item = N.neighbors item) :
    ∃ M, N.copyEntries .empty es = .ok M ∧ N.PrivateCopies N.neighbors M := by
  have hthere : ∀ e ∈ es, (N.vector? e.2.ratings).isSome := by
    intro e he
    have hmem : e.2 ∈ N.neighbors e.1 := by
      rw [← hes e.1, entriesFor]
      exact List.mem_map_of_mem (List.mem_filter.mpr ⟨he, by simp⟩)
    exact isSome_vector?_of_mem hmem
  have hempty : N.PrivateCopies (fun _ => []) .empty :=
    ⟨fun _ => .nil, fun _ _ _ _ _ _ hn => by simp [neighbors, empty] at hn⟩
  obtain ⟨M, hrun, hM⟩ := hempty.exists_copyEntries hthere
  refine ⟨M, hrun, ?_⟩
  simpa only [List.nil_append, hes] using hM

end Neighborhoods

/-! ## 4. Sharing is not seen -/

/-- **Sharing is not seen in predictions.**  Let entries of `N` that share a vector belong to one
user.  Copies of all entries can be built, each with a vector of its own, and whatever `M` holds
such copies: a finder that answers with `N` and one that answers with `M` lead to the same
predictions. -/
theorem Predictor.predict_eq_of_privateCopies [Arithmetic α] [Transformation τ α]
    {f : Int → RatingVector α → Except RequestError Unit × RatingVector α}
    {g : Int → RatingVector α → Except RequestError τ} {N : Neighborhoods α} {user : Int}
    {ratings : RatingVector α} {t : τ} (hN : N.OneUserPerHandle)
    (hnorm : ∀ call ∈ N.firstCalls, (f call.1 call.2).1 = .ok ())
    (htrans : g user ratings = .ok t) :
    (∀ es, (∀ item, Neighborhoods.entriesFor es item = N.neighbors item) →
      ∃ M, N.copyEntries .empty es = .ok M ∧ N.PrivateCopies N.neighbors M) ∧
    ∀ M, N.PrivateCopies N.neighbors M →
      ∀ (items? : Option (List Int)) (finder : Finder σ α) (finder' : Finder σ' α) (s s₁ : σ)
        (r r₁ : σ'),
        (finder.find user ratings (items?.map ItemSet.ofList)).runFrom s = (.ok N, s₁) →
        (finder'.find user ratings (items?.map ItemSet.ofList)).runFrom r = (.ok M, r₁) →
        ∃ predictions : RatingVector α,
          (Predictor.predict ⟨finder, .ofFunctions f g⟩ user ratings items?).runFrom s =
            (.ok predictions, s₁) ∧
          (Predictor.predict ⟨finder', .ofFunctions f g⟩ user ratings items?).runFrom r =
            (.ok predictions, r₁) := by
  refine ⟨fun es hes => Neighborhoods.exists_privateCopies hes, ?_⟩
  intro M hcopies items? finder finder' s s₁ r r₁ hfind hfind'
  have hM : M.OneUserPerHandle := hcopies.oneUserPerHandle
  have hnormM : ∀ call ∈ M.firstCalls, (f call.1 call.2).1 = .ok () := by
    intro call hcall
    exact hnorm call (Neighborhoods.firstCalls_subset_of_sameVotes hN hM hcopies.votes hcall)
  have hscope : M.scope items? = N.scope items? := by
    rw [Neighborhoods.scope, Neighborhoods.scope,
      Neighborhoods.items_eq_of_sameVotes hcopies.votes]
  have hscores : M.scoresOnce f (M.scope items?) = N.scoresOnce f (N.scope items?) := by
    rw [hscope]
    refine Neighborhoods.scoresOnce_congr ?_
    intro item _
    exact (Neighborhoods.meanVote_eq_of_sameVotes hN hM (hcopies.votes item)).symm
  refine ⟨_, predict_ofFunctions hfind hnorm htrans, ?_⟩
  rw [predict_ofFunctions hfind' hnormM htrans, hscores]

/-- Neighbor 7 votes on items 1 and 2 with one vector, neighbor 9 on item 1 with another. -/
def sharedByOneUser : Neighborhoods Float where
  vectors := #[.ofPairs [(1, 4.0), (2, 3.0)], .ofPairs [(1, 4.0), (2, 3.0)]]
  byItem := .ofList [(1, [⟨7, 1.0, ⟨0⟩⟩, ⟨9, -0.5, ⟨1⟩⟩]), (2, [⟨7, 0.5, ⟨0⟩⟩])]
  resolves := by decide
  nonempty := by decide

theorem predict_eq_of_privateCopies_of_two_items :
    sharedByOneUser.OneUserPerHandle ∧
      (∀ call ∈ sharedByOneUser.firstCalls, (shiftByUser call.1 call.2).1 = .ok ()) ∧
      ∃ M, sharedByOneUser.copyEntries .empty sharedByOneUser.listing = .ok M ∧
        M.vectorCount = 3 ∧ ∃ predictions : RatingVector Float,
          (Predictor.predict ⟨answering sharedByOneUser, .ofFunctions shiftByUser doubleAndAddOne⟩
            0 .empty none).runFrom () = (.ok predictions, ()) ∧
          (Predictor.predict ⟨answering M, .ofFunctions shiftByUser doubleAndAddOne⟩
            0 .empty none).runFrom () = (.ok predictions, ()) := by
  have hN : sharedByOneUser.OneUserPerHandle := by decide +kernel
  have hnorm : ∀ call ∈ sharedByOneUser.firstCalls, (shiftByUser call.1 call.2).1 = .ok () := by
    intro call _
    rfl
  have htrans : doubleAndAddOne 0 .empty = .ok (.shiftScale 1.0 2.0) := rfl
  obtain ⟨hcopies, hsame⟩ :=
    @Predictor.predict_eq_of_privateCopies Unit Unit _ _ _ _ _ _ _ _ _ _ hN hnorm htrans
  obtain ⟨M, hM, hprivate⟩ := hcopies sharedByOneUser.listing fun item => by simp
  have hcount : (sharedByOneUser.copyEntries .empty sharedByOneUser.listing).map
      Neighborhoods.vectorCount = .ok 3 := by decide +kernel
  rw [hM] at hcount
  exact ⟨hN, hnorm, M, hM, Except.ok.inj hcount,
    hsame M hprivate none (answering sharedByOneUser) (answering M) () () () () rfl rfl⟩

end PeerRatings
