/-
# The order of the finder's calls

A finder stores vectors and lists neighbors in some order.  The order numbers the handles, it says
which entry comes first under a handle, and both sums of an item's mean follow it.  In exact
arithmetic none of this reaches a prediction, without normalization or with mean centering: two
finders may answer with the same entries in different orders and under different handles, as long
as renamed handles have equal contents behind them (`Reordered`).

Two facts carry the argument.  A vote depends on its handle by the contents alone
(`ratingOnce_fitted`), so that the renaming drops out entry by entry; and the mean of votes does
not depend on their order (`meanVote_perm`).  Handles with equal contents may be merged by the
renaming: it need not be one-to-one.
-/
import PeerRatings.Normalization.MeanCentering
import PeerRatings.Proofs.Neighborhoods.Histories
import PeerRatings.Proofs.Prediction.ExactMeans
import PeerRatings.Proofs.Prediction.Fitted

namespace PeerRatings

variable {σ α : Type}

/-! ## 1. The same entries, in another order and under other handles -/

/-- The entry under another handle. -/
def Neighbor.rename (r : Handle → Handle) (n : Neighbor α) : Neighbor α :=
  ⟨n.user, n.similarity, r n.ratings⟩

namespace Neighborhoods

/-- `M` lists for each item what `N` lists, in some order and with renamed handles, and has behind
a renamed handle the vector that `N` has behind the handle.  Vectors that no entry of `N` points
at are left open, on either side. -/
structure Reordered (r : Handle → Handle) (N M : Neighborhoods α) : Prop where
  entries : ∀ item, (M.neighbors item).Perm ((N.neighbors item).map (Neighbor.rename r))
  contents : ∀ item, ∀ n ∈ N.neighbors item, M.vector? (r n.ratings) = N.vector? n.ratings

/-- **Builder calls in another order.**  If calls are accepted with the same entries up to order
and handles, and the vectors added are the same behind renamed handles, then so are the
neighborhoods that they build. -/
theorem reordered_built {r : Handle → Handle} {calls calls' : List (BuildCall α)}
    (hentries : (accepted calls').Perm ((accepted calls).map (Prod.map id (Neighbor.rename r))))
    (hcontents : ∀ e ∈ accepted calls,
      (added calls')[(r e.2.ratings).index]? = (added calls)[e.2.ratings.index]?) :
    (built calls).Reordered r (built calls') := by
  refine ⟨?_, ?_⟩
  · intro item
    have hsame : entriesFor ((accepted calls).map (Prod.map id (Neighbor.rename r))) item =
        (entriesFor (accepted calls) item).map (Neighbor.rename r) := by
      rw [entriesFor, List.filter_map, List.map_map, entriesFor, List.map_map]
      rfl
    rw [(reflects_built calls').neighbors, (reflects_built calls).neighbors, ← hsame]
    exact (hentries.filter _).map _
  · intro item n hn
    rw [(reflects_built calls).neighbors, entriesFor, List.mem_map] at hn
    obtain ⟨e, he, rfl⟩ := hn
    rw [(reflects_built calls').vector?, (reflects_built calls).vector?]
    exact hcontents e (List.mem_of_mem_filter he)

namespace Reordered

variable {r : Handle → Handle} {N M : Neighborhoods α}

theorem items_eq (h : N.Reordered r M) : M.items = N.items := by
  refine ItemSet.ext_mem fun item => ?_
  rw [M.mem_items_iff, N.mem_items_iff, ← List.length_pos_iff, ← List.length_pos_iff,
    (h.entries item).length_eq, List.length_map]

/-- A renamed entry votes as the entry does. -/
theorem ratingOnce_rename [Arithmetic α] {fit : List α → Rescaling α} (h : N.Reordered r M)
    {item : Int} {n : Neighbor α} (hn : n ∈ N.neighbors item) :
    M.ratingOnce (fittedCall fit) item (n.rename r) = N.ratingOnce (fittedCall fit) item n := by
  obtain ⟨v, hv⟩ := N.exists_vector hn
  have hmem : n.rename r ∈ M.neighbors item :=
    (h.entries item).mem_iff.mpr (List.mem_map_of_mem hn)
  have hvector : M.vector? (n.rename r).ratings = some v := (h.contents item n hn).trans hv
  rw [ratingOnce_fitted hmem hvector, ratingOnce_fitted hn hv]

/-- **Scores do not depend on order and handles.** -/
theorem scoresOnce_eq {fit : List Exact → Rescaling Exact} {N M : Neighborhoods Exact}
    (h : N.Reordered r M) (items : ItemSet) :
    M.scoresOnce (fittedCall fit) items = N.scoresOnce (fittedCall fit) items := by
  refine scoresOnce_congr fun item _ => ?_
  calc meanVote (M.ratingOnce (fittedCall fit) item) (M.neighbors item)
      = meanVote (M.ratingOnce (fittedCall fit) item)
          ((N.neighbors item).map (Neighbor.rename r)) := meanVote_perm (h.entries item)
    _ = meanVote (N.ratingOnce (fittedCall fit) item) (N.neighbors item) := by
      refine meanVote_congr (List.forall₂_map_left_iff.mpr (List.forall₂_same.mpr ?_))
      intro n hn
      exact ⟨rfl, h.ratingOnce_rename hn⟩

end Reordered

end Neighborhoods

/-! ## 2. Predictions -/

/-- **A prediction does not depend on the order in which its neighbors were found.**  In exact
arithmetic, without normalization or with mean centering, two finders that answer with the same
entries up to order and handles lead to one prediction, for every user and every request.  It
covers the items asked for, or those with neighbors. -/
theorem Predictor.predict_eq_of_reordered {nz : Normalizer σ (Rescaling Exact) Exact}
    (hnz : nz = .identity ∨ ∃ m : MeanCentering Exact, nz = m.normalizer)
    {finder finder' : Finder σ Exact} {user : Int} {ratings : RatingVector Exact}
    {items? : Option (List Int)} {N M : Neighborhoods Exact} {r : Handle → Handle}
    {s s' t t' : σ} (h : N.Reordered r M)
    (hfind : (finder.find user ratings (items?.map ItemSet.ofList)).runFrom s = (.ok N, s'))
    (hfind' : (finder'.find user ratings (items?.map ItemSet.ofList)).runFrom t = (.ok M, t')) :
    ∃ predictions : RatingVector Exact,
      (Predictor.predict ⟨finder, nz⟩ user ratings items?).runFrom s = (.ok predictions, s') ∧
      (Predictor.predict ⟨finder', nz⟩ user ratings items?).runFrom t = (.ok predictions, t') ∧
      ∀ item, item ∈ predictions.keys ↔
        items?.elim (N.neighbors item ≠ []) fun items => item ∈ items := by
  obtain ⟨fit, rfl⟩ : ∃ fit, nz = .fitted fit := by
    rcases hnz with rfl | ⟨m, rfl⟩
    · exact ⟨_, rfl⟩
    · exact ⟨m.fit, rfl⟩
  have hscope : M.scope items? = N.scope items? := by
    rw [Neighborhoods.scope, h.items_eq, Neighborhoods.scope]
  refine ⟨_, predict_fitted hfind, ?_, fun item => ?_⟩
  · rw [predict_fitted hfind', hscope, h.scoresOnce_eq]
  · have hkeys : ((fit ratings.known).unapply (N.scoresOnce (fittedCall fit) _)).keys =
        (N.scope items?).keys :=
      (Transformation.keys_unapply (fit ratings.known) _).trans (Neighborhoods.keys_scoresOnce ..)
    rw [hkeys]
    exact Neighborhoods.mem_scope_iff

/-- Neighbors 7 and 8 share a vector, neighbor 9 has one of their own. -/
def sharedFirst : List (BuildCall Exact) :=
  [.addVector (.ofPairs [(1, .value 4), (2, .value 3)]), .addVector (.ofPairs [(1, .value 5)]),
    .addNeighbor 1 ⟨7, .value 1, ⟨0⟩⟩, .addNeighbor 1 ⟨9, .value (-1 / 2), ⟨1⟩⟩,
    .addNeighbor 2 ⟨8, .value (1 / 2), ⟨0⟩⟩]

/-- The calls of `sharedFirst` in another order, behind a vector that nobody points at. -/
def sharedLast : List (BuildCall Exact) :=
  [.addVector (.ofPairs [(3, .value 1)]), .addVector (.ofPairs [(1, .value 5)]),
    .addNeighbor 1 ⟨9, .value (-1 / 2), ⟨1⟩⟩,
    .addVector (.ofPairs [(1, .value 4), (2, .value 3)]),
    .addNeighbor 2 ⟨8, .value (1 / 2), ⟨2⟩⟩, .addNeighbor 1 ⟨7, .value 1, ⟨2⟩⟩]

/-- Mean centering with two further ratings of 3 for everybody. -/
def dampedByTwo : MeanCentering Exact where
  damping := .value 2
  globalMean := .value 3
  damping_nonneg := by decide
  damping_finite := by decide
  globalMean_finite := by decide

theorem predict_eq_of_reordered_of_shared :
    (Neighborhoods.built sharedFirst).Reordered (fun h => ⟨2 - h.index⟩)
        (Neighborhoods.built sharedLast) ∧
      ∃ predictions : RatingVector Exact,
        (Predictor.predict ⟨.constant (.built sharedFirst), dampedByTwo.normalizer⟩ 1
          (.ofPairs [(5, .value 6)]) none).runFrom () = (.ok predictions, ()) ∧
        (Predictor.predict ⟨.constant (.built sharedLast), dampedByTwo.normalizer⟩ 1
          (.ofPairs [(5, .value 6)]) none).runFrom () = (.ok predictions, ()) ∧
        predictions.get 1 = .value (73 / 18) := by
  have hreordered : (Neighborhoods.built sharedFirst).Reordered (fun h => ⟨2 - h.index⟩)
      (Neighborhoods.built sharedLast) :=
    Neighborhoods.reordered_built (by decide +kernel) (by decide +kernel)
  have hfind : ((Finder.constant (.built sharedFirst)).find 1 (.ofPairs [(5, .value 6)])
      ((none : Option (List Int)).map ItemSet.ofList)).runFrom () =
        (.ok (.built sharedFirst), ()) := rfl
  have hfind' : ((Finder.constant (.built sharedLast)).find 1 (.ofPairs [(5, .value 6)])
      ((none : Option (List Int)).map ItemSet.ofList)).runFrom () =
        (.ok (.built sharedLast), ()) := rfl
  obtain ⟨predictions, hfirst, hlast, -⟩ :=
    Predictor.predict_eq_of_reordered (.inr ⟨dampedByTwo, rfl⟩) hreordered hfind hfind'
  refine ⟨hreordered, predictions, hfirst, hlast, ?_⟩
  have hget : ((Predictor.predict ⟨.constant (.built sharedFirst), dampedByTwo.normalizer⟩ 1
      (.ofPairs [(5, .value 6)]) none).runFrom ()).1.toOption.map (RatingVector.get · 1) =
        some (.value (73 / 18)) := by
    decide +kernel
  rw [hfirst] at hget
  exact Option.some.inj hget

end PeerRatings
