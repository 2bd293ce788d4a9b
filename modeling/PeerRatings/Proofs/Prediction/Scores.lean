/-
# What a prediction holds

`Predictor.predict` goes through four stages that each change something: the request becomes a
set, the pass rewrites the stored vectors, the votes are counted on what it left, and the result
is mapped back.  For a normalizer whose calls are functions of their arguments this file closes
the stages into **one formula over the neighborhoods as the finder returned them**:

* a vote's rating is read off the vector behind its handle, normalized once for the first user
  that carries the handle (`ratingOnce`);
* an item's score is the mean of these ratings, weighted by similarity, both sums from left to
  right over the entries of the item (`meanVote`).

`predict_ofFunctions` is the equation, and `predict_holds_scores` spells out what it says about
keys and values.  The equation reads the entries of an item and the calls owed to their handles;
what is listed for other items reaches a score only through the first user of a shared handle.
-/
import Mathlib.Data.List.Forall2
import PeerRatings.Predictor
import PeerRatings.Proofs.Normalization.OncePerVector

namespace PeerRatings

variable {σ τ α : Type}

/-! ## 1. The pass of a normalizer without state -/

section Functions

variable {f : Int → RatingVector α → Except RequestError Unit × RatingVector α}
  {g : Int → RatingVector α → Except RequestError τ}

theorem Normalizer.callEach_ofFunctions {calls : List (Int × RatingVector α)} (s : σ)
    (hok : ∀ call ∈ calls, (f call.1 call.2).1 = .ok ()) :
    (ofFunctions f g).callEach calls s = ((.ok (), calls.map fun call => (f call.1 call.2).2), s) := by
  induction calls with
  | nil => rfl
  | cons call rest ih =>
    have hcall : (ofFunctions f g).normalize call.1 call.2 s =
        ((.ok (), (f call.1 call.2).2), s) := by
      rw [normalize_ofFunctions, ← hok call List.mem_cons_self]
    rw [callEach_cons_ok call rest hcall, ih fun c hc => hok c (List.mem_cons_of_mem _ hc)]
    rfl

theorem Normalizer.normalized_ofFunctions {N : Neighborhoods α} (s : σ)
    (hok : ∀ call ∈ N.firstCalls, (f call.1 call.2).1 = .ok ()) :
    ∃ N', ((ofFunctions f g).normalized N).runFrom s = (.ok N', s) ∧
      N.NormalizedOnce N' (N.firstCalls.map fun call => (f call.1 call.2).2) := by
  refine ⟨_, ?_, N.normalizedOnce_putEach (by rw [List.length_map, N.length_firstCalls])⟩
  rw [runFrom_normalized, callEach_ofFunctions s hok]
  rfl

end Functions

/-- After a pass, the vector of a handle that was met is the answer to its call. -/
theorem Neighborhoods.NormalizedOnce.vector?_eq {N N' : Neighborhoods α}
    {answer : Int × RatingVector α → RatingVector α}
    (h : N.NormalizedOnce N' (N.firstCalls.map answer)) {handle : Handle}
    (hmet : handle ∈ N.handlesMet) :
    N'.vector? handle = (N.firstCall? handle).map answer := by
  have hmap : N.handlesMet.map N'.vector? =
      N.handlesMet.map fun handle => (N.firstCall? handle).map answer := by
    calc N.handlesMet.map N'.vector? = (N.firstCalls.map answer).map some := h.met
      _ = (N.firstCalls.map some).map (Option.map answer) := by
        rw [List.map_map, List.map_map]
        rfl
      _ = (N.handlesMet.map N.firstCall?).map (Option.map answer) := by rw [N.map_firstCall?]
      _ = _ := List.map_map
  exact List.map_inj_left.mp hmap handle hmet

/-! ## 2. Weighted means over entries -/

section Means

variable [Arithmetic α]

/-- Similarity times rating, summed over the entries that have a rating. -/
def voteSum (rating : Neighbor α → α) (entries : List (Neighbor α)) : α :=
  entries.foldl (fun sum n =>
    if Arithmetic.isAbsent (rating n) then sum else sum + n.similarity * rating n) Arithmetic.zero

/-- Magnitudes of the similarities, summed over the entries that have a rating. -/
def voteWeight (rating : Neighbor α → α) (entries : List (Neighbor α)) : α :=
  entries.foldl (fun weight n =>
    if Arithmetic.isAbsent (rating n) then weight else weight + Arithmetic.abs n.similarity)
    Arithmetic.zero

/-- The weighted mean of the ratings that entries have; absent where the weight is not
positive. -/
def meanVote (rating : Neighbor α → α) (entries : List (Neighbor α)) : α :=
  if Arithmetic.numLt Arithmetic.zero (voteWeight rating entries) then
    voteSum rating entries / voteWeight rating entries
  else Arithmetic.absent

/-- Counting ballots is summing over entries and passing over those without a rating. -/
theorem Neighborhoods.score_eq_meanVote (N : Neighborhoods α) (item : Int) :
    N.score item = meanVote (fun n => N.rating n.ratings item) (N.neighbors item) := by
  have hsum : Ballot.weightedSum (N.ballots item) =
      voteSum (fun n => N.rating n.ratings item) (N.neighbors item) := by
    rw [Ballot.weightedSum, ballots, List.foldl_filterMap, voteSum]
    congr 1
    funext sum n
    by_cases h : Arithmetic.isAbsent (N.rating n.ratings item) <;> simp [h]
  have hweight : Ballot.totalWeight (N.ballots item) =
      voteWeight (fun n => N.rating n.ratings item) (N.neighbors item) := by
    rw [Ballot.totalWeight, ballots, List.foldl_filterMap, voteWeight]
    congr 1
    funext weight n
    by_cases h : Arithmetic.isAbsent (N.rating n.ratings item) <;> simp [h]
  rw [score, Ballot.average, hsum, hweight, meanVote]

/-- Entries without a rating carry no weight. -/
theorem voteWeight_of_absent {rating : Neighbor α → α} {entries : List (Neighbor α)}
    (h : ∀ n ∈ entries, Arithmetic.isAbsent (rating n) = true) :
    voteWeight rating entries = Arithmetic.zero := by
  rw [voteWeight]
  induction entries with
  | nil => rfl
  | cons n rest ih =>
    rw [List.foldl_cons, if_pos (h n List.mem_cons_self)]
    exact ih fun m hm => h m (List.mem_cons_of_mem _ hm)

theorem meanVote_of_weight {rating : Neighbor α → α} {entries : List (Neighbor α)}
    (h : Arithmetic.numLt Arithmetic.zero (voteWeight rating entries) = false) :
    meanVote rating entries = Arithmetic.absent := by
  rw [meanVote, h]
  rfl

theorem foldl_eq_of_forall₂ {β γ δ : Type} {step : δ → β → δ} {step' : δ → γ → δ} {l : List β}
    {l' : List γ} (h : List.Forall₂ (fun b c => ∀ acc, step acc b = step' acc c) l l') (init : δ) :
    l.foldl step init = l'.foldl step' init := by
  refine List.rel_foldl (P := Eq) ?_ rfl h
  rintro acc _ rfl b c hstep
  exact hstep acc

/-- Entries that agree in similarity and rating, one by one, have the same mean. -/
theorem meanVote_congr {r r' : Neighbor α → α} {ns ns' : List (Neighbor α)}
    (h : List.Forall₂ (fun n n' => n.similarity = n'.similarity ∧ r n = r' n') ns ns') :
    meanVote r ns = meanVote r' ns' := by
  have hsum : voteSum r ns = voteSum r' ns' := by
    refine foldl_eq_of_forall₂ (h.imp ?_) _
    rintro n n' ⟨hsim, hr⟩ sum
    rw [hsim, hr]
  have hweight : voteWeight r ns = voteWeight r' ns' := by
    refine foldl_eq_of_forall₂ (h.imp ?_) _
    rintro n n' ⟨hsim, hr⟩ weight
    rw [hsim, hr]
  rw [meanVote, meanVote, hsum, hweight]

end Means

/-! ## 3. Scores over the neighborhoods as they were found -/

namespace Neighborhoods

/-- The items that a prediction covers: those of a list, or all that have neighbors. -/
def scope (N : Neighborhoods α) (items? : Option (List Int)) : ItemSet :=
  (items?.map ItemSet.ofList).getD N.items

theorem mem_scope_iff {N : Neighborhoods α} {items? : Option (List Int)} {item : Int} :
    item ∈ (N.scope items?).keys ↔
      items?.elim (N.neighbors item ≠ []) fun items => item ∈ items := by
  cases items? with
  | none => exact N.mem_items_iff item
  | some items => exact ItemSet.mem_keys_ofList

end Neighborhoods

section Prediction

variable [Arithmetic α] {f : Int → RatingVector α → Except RequestError Unit × RatingVector α}
  {g : Int → RatingVector α → Except RequestError τ}

namespace Neighborhoods

/-- The rating with which an entry votes on an item: that of its vector, normalized by `f` once,
for the first user who carries the handle. -/
def ratingOnce (f : Int → RatingVector α → Except RequestError Unit × RatingVector α)
    (N : Neighborhoods α) (item : Int) (n : Neighbor α) : α :=
  ((N.firstCall? n.ratings).map fun call => RatingVector.get (f call.1 call.2).2 item).getD
    Arithmetic.absent

/-- The scores of a set of items. -/
def scoresOnce (f : Int → RatingVector α → Except RequestError Unit × RatingVector α)
    (N : Neighborhoods α) (items : ItemSet) : RatingVector α :=
  items.mapEntries fun item _ => meanVote (N.ratingOnce f item) (N.neighbors item)

@[simp] theorem keys_scoresOnce (N : Neighborhoods α) (items : ItemSet) :
    (N.scoresOnce f items).keys = items.keys :=
  IdMap.keys_mapEntries ..

theorem get?_scoresOnce (N : Neighborhoods α) (items : ItemSet) (item : Int) :
    (N.scoresOnce f items).get? item =
      (items.get? item).map fun _ => meanVote (N.ratingOnce f item) (N.neighbors item) :=
  IdMap.get?_mapEntries ..

theorem get?_scoresOnce_of_mem {N : Neighborhoods α} {items : ItemSet} {item : Int}
    (h : item ∈ items.keys) :
    (N.scoresOnce f items).get? item =
      some (meanVote (N.ratingOnce f item) (N.neighbors item)) := by
  obtain ⟨u, hu⟩ := Option.isSome_iff_exists.mp (IdMap.mem_keys_iff.mp h)
  rw [get?_scoresOnce, hu]
  rfl

/-- Scores are equal when they are equal item by item. -/
theorem scoresOnce_congr {N M : Neighborhoods α} {items : ItemSet}
    (h : ∀ item ∈ items.keys, meanVote (M.ratingOnce f item) (M.neighbors item) =
      meanVote (N.ratingOnce f item) (N.neighbors item)) :
    M.scoresOnce f items = N.scoresOnce f items := by
  refine IdMap.ext_get? fun item => ?_
  by_cases hitem : item ∈ items.keys
  · rw [get?_scoresOnce_of_mem hitem, get?_scoresOnce_of_mem hitem, h item hitem]
  · rw [get?_scoresOnce, get?_scoresOnce, IdMap.get?_of_not_mem hitem]
    rfl

/-- **Votes on what a pass left are votes with ratings normalized once.** -/
theorem NormalizedOnce.scores_eq {N N' : Neighborhoods α}
    (h : N.NormalizedOnce N' (N.firstCalls.map fun call => (f call.1 call.2).2))
    (items : ItemSet) : N'.scores items = N.scoresOnce f items := by
  rw [scores, scoresOnce]
  congr 1
  funext item _
  rw [score_eq_meanVote, h.entries]
  refine meanVote_congr (List.forall₂_same.mpr ?_)
  intro n hn
  have hmet : n.ratings ∈ N.handlesMet := mem_handlesMet_iff.mpr ⟨item, n, hn, rfl⟩
  refine ⟨rfl, ?_⟩
  rw [rating, h.vector?_eq hmet, Option.map_map, ratingOnce]
  rfl

end Neighborhoods

variable [Transformation τ α]

/-- **The stages of a prediction, closed.** -/
theorem Predictor.predict_ofFunctions {finder : Finder σ α} {user : Int}
    {ratings : RatingVector α} {items? : Option (List Int)} {N : Neighborhoods α} {t : τ}
    {s s' : σ}
    (hfind : (finder.find user ratings (items?.map ItemSet.ofList)).runFrom s = (.ok N, s'))
    (hnorm : ∀ call ∈ N.firstCalls, (f call.1 call.2).1 = .ok ())
    (htrans : g user ratings = .ok t) :
    (Predictor.predict ⟨finder, .ofFunctions f g⟩ user ratings items?).runFrom s =
      (.ok (Transformation.unapply t (N.scoresOnce f (N.scope items?))), s') := by
  obtain ⟨N', hrun, honce⟩ := Normalizer.normalized_ofFunctions (g := g) s' hnorm
  simp only [predict, CallM.runFrom_bind, hfind, hrun, Normalizer.transformation_ofFunctions,
    htrans, honce.scores_eq, CallM.runFrom_pure]
  rfl

/-! ## 4. Keys and values -/

/-- `M` lists for the items of a set what `N` lists for them, and owes their handles the same
calls.  What the two list for other items is left open. -/
def Neighborhoods.AgreeOn (items : ItemSet) (N M : Neighborhoods α) : Prop :=
  ∀ item ∈ items.keys, M.neighbors item = N.neighbors item ∧
    ∀ n ∈ N.neighbors item, M.firstCall? n.ratings = N.firstCall? n.ratings

theorem Neighborhoods.AgreeOn.scoresOnce_eq {items : ItemSet} {N M : Neighborhoods α}
    (h : N.AgreeOn items M) : M.scoresOnce f items = N.scoresOnce f items := by
  refine scoresOnce_congr ?_
  intro item hitem
  obtain ⟨hentries, hcalls⟩ := h item hitem
  rw [hentries]
  refine meanVote_congr (List.forall₂_same.mpr ?_)
  intro n hn
  exact ⟨rfl, by rw [ratingOnce, ratingOnce, hcalls n hn]⟩

/-- **A prediction holds the weighted means of ratings normalized once.**  If the finder answers
with `N` and no call that a handle of `N` is owed is refused, nor the transformation, then the
prediction succeeds and is what the transformation makes of `scores`: its keys are the items asked
for, or those with neighbors, and its values the means.  What is listed for items that were not
asked for adds no key, and as long as it leaves the first users of the handles alone it changes no
value.

The transformation may be a caller's own.  That it keeps the keys on the way back is assumed of it
(`Transformation.keys_unapply`): it works in place, on values over fixed keys. -/
theorem Predictor.predict_holds_scores {finder : Finder σ α} {user : Int}
    {ratings : RatingVector α} {items? : Option (List Int)} {N : Neighborhoods α} {t : τ}
    {s s' : σ}
    (hfind : (finder.find user ratings (items?.map ItemSet.ofList)).runFrom s = (.ok N, s'))
    (hnorm : ∀ call ∈ N.firstCalls, (f call.1 call.2).1 = .ok ())
    (htrans : g user ratings = .ok t) :
    ∃ scores : RatingVector α,
      (Predictor.predict ⟨finder, .ofFunctions f g⟩ user ratings items?).runFrom s =
        (.ok (Transformation.unapply t scores), s') ∧
      (Transformation.unapply t scores).keys = scores.keys ∧
      scores.keys.Pairwise (· < ·) ∧
      (∀ item, item ∈ scores.keys ↔
        items?.elim (N.neighbors item ≠ []) fun items => item ∈ items) ∧
      (∀ item ∈ scores.keys,
        scores.get? item = some (meanVote (N.ratingOnce f item) (N.neighbors item))) ∧
      ∀ items, items? = some items → ∀ (other : Finder σ α) (M : Neighborhoods α) (r r' : σ),
        (other.find user ratings (items?.map ItemSet.ofList)).runFrom r = (.ok M, r') →
        (∀ call ∈ M.firstCalls, (f call.1 call.2).1 = .ok ()) →
        N.AgreeOn (.ofList items) M →
        (Predictor.predict ⟨other, .ofFunctions f g⟩ user ratings items?).runFrom r =
          (.ok (Transformation.unapply t scores), r') := by
  refine ⟨N.scoresOnce f (N.scope items?), predict_ofFunctions hfind hnorm htrans,
    Transformation.keys_unapply _ _, IdMap.keys_ascending _, ?_, ?_, ?_⟩
  · intro item
    rw [Neighborhoods.keys_scoresOnce]
    exact Neighborhoods.mem_scope_iff
  · intro item hitem
    rw [Neighborhoods.keys_scoresOnce] at hitem
    exact Neighborhoods.get?_scoresOnce_of_mem hitem
  · rintro items rfl other M r r' hother hnormM hagree
    have hscores : M.scoresOnce f (M.scope (some items)) = N.scoresOnce f (N.scope (some items)) :=
      hagree.scoresOnce_eq
    rw [predict_ofFunctions hother hnormM htrans, hscores]

end Prediction

/-- `sharedAndEqual` with a neighbor for item 5, whose vector nobody else points at. -/
def sharedAndOutside : Neighborhoods Float where
  vectors := sharedAndEqual.vectors
  byItem := sharedAndEqual.byItem.insert 5 [⟨5, 1.0, ⟨2⟩⟩]
  resolves := by decide
  nonempty := by decide

/-- Shifts the ratings of a user down by the user's number. -/
def shiftByUser (user : Int) (v : RatingVector Float) :
    Except RequestError Unit × RatingVector Float :=
  (.ok (), v.mapEntries fun _ r => r - Float.ofNat user.toNat)

abbrev answering (N : Neighborhoods Float) : Finder Unit Float := .ofFunction fun _ _ _ => .ok N

def doubleAndAddOne (_ : Int) (_ : RatingVector Float) : Except RequestError (Rescaling Float) :=
  .ok (.shiftScale 1.0 2.0)

/-- The vector that items 1 and 2 share is normalized for user 7, who is met first, also where user
8 votes with it. -/
theorem predict_holds_scores_of_shared :
    (∀ call ∈ sharedAndEqual.firstCalls, (shiftByUser call.1 call.2).1 = .ok ()) ∧
      ∃ predictions : RatingVector Float,
        (Predictor.predict ⟨answering sharedAndEqual, .ofFunctions shiftByUser doubleAndAddOne⟩ 0
          .empty (some [2, 1, 2, 9])).runFrom () = (.ok predictions, ()) ∧
        (Predictor.predict ⟨answering sharedAndOutside, .ofFunctions shiftByUser doubleAndAddOne⟩ 0
          .empty (some [2, 1, 2, 9])).runFrom () = (.ok predictions, ()) ∧
        (∀ item, item ∈ predictions.keys ↔ item ∈ [2, 1, 2, 9]) ∧ predictions.get 2 = -7.0 := by
  have hnorm : ∀ call ∈ sharedAndEqual.firstCalls, (shiftByUser call.1 call.2).1 = .ok () := by
    intro call _
    rfl
  have hfind : ((answering sharedAndEqual).find 0 .empty
      ((some [2, 1, 2, 9]).map ItemSet.ofList)).runFrom () = (.ok sharedAndEqual, ()) := rfl
  have htrans : doubleAndAddOne 0 .empty = .ok (.shiftScale 1.0 2.0) := rfl
  obtain ⟨scores, hrun, hkeys, -, hmem, hvalue, hother⟩ :=
    Predictor.predict_holds_scores hfind hnorm htrans
  have hagree : sharedAndEqual.AgreeOn (.ofList [2, 1, 2, 9]) sharedAndOutside := by
    unfold Neighborhoods.AgreeOn
    decide +kernel
  refine ⟨hnorm, _, hrun, hother _ rfl (answering sharedAndOutside) _ () () rfl ?_ hagree, ?_, ?_⟩
  · intro call _
    rfl
  · intro item
    rw [hkeys]
    exact hmem item
  · have h2 := hvalue 2 ((hmem 2).mpr (show (2 : Int) ∈ [2, 1, 2, 9] by decide))
    refine RatingVector.get_eq ?_
    change (Rescaling.unapply (.shiftScale 1.0 2.0) scores).get? 2 = _
    rw [Rescaling.get?_unapply, h2]
    decide +kernel

end PeerRatings
