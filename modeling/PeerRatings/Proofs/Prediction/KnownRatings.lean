/-
# Known ratings come back

A user whose neighbors all give the user's own ratings should be told these ratings.  In exact
arithmetic mean centering does so, whatever its settings are.

The ratings go through two transformations that are made in different places.  The vectors of the
neighbors are shifted by the pass, each by its own offset; the mean is shifted back by the offset
of the ratings that the user came with.  All these offsets are one number, since all vectors are
equal (`MeanCentering.exists_offset`), and a shift by a number can be taken back
(`MeanCentering.backward_forward`).  In between, votes that agree are not changed by the weights
(`meanVote_of_unanimous`).
-/
import PeerRatings.Proofs.Normalization.DampedMeans
import PeerRatings.Proofs.Prediction.Fitted

namespace PeerRatings

variable {σ : Type}

/-! ## 1. The shift can be taken back -/

namespace MeanCentering

variable {ratings : List Exact}

/-- **The offset of given ratings is a number**, also where there is nothing to divide by. -/
theorem exists_offset (m : MeanCentering Exact)
    (h : ∀ r ∈ ratings, Arithmetic.isAbsent r = false) : ∃ o, m.offset ratings = .value o := by
  obtain ⟨d, hd⟩ := Exact.eq_value_of_finite m.damping_finite
  obtain ⟨μ, hμ⟩ := Exact.eq_value_of_finite m.globalMean_finite
  obtain ⟨qs, rfl⟩ := Exact.exists_values h
  exact ⟨dampedMean d μ qs, offset_map_value hd hμ qs⟩

/-- **What the shift does to a value can be taken back.** -/
theorem backward_forward (m : MeanCentering Exact)
    (h : ∀ r ∈ ratings, Arithmetic.isAbsent r = false) (x : Exact) :
    (m.fit ratings).backward ((m.fit ratings).forward x) = x := by
  obtain ⟨o, ho⟩ := m.exists_offset h
  rw [fit, ho]
  cases x with
  | absent => rfl
  | value q =>
    have hone : (Arithmetic.one : Exact) = .value 1 := rfl
    rw [Rescaling.forward_shift, Rescaling.backward, hone, Exact.value_mul, Exact.value_add,
      mul_one, sub_add_cancel]

end MeanCentering

/-! ## 2. Neighbors who give the user's ratings -/

/-- The items with neighbors are those of `ratings`, and whoever is listed has a positive
similarity and these ratings, be it behind one handle or behind several. -/
structure Neighborhoods.Echoes (N : Neighborhoods Exact) (ratings : RatingVector Exact) : Prop where
  items : N.items.keys = ratings.keys
  similarity : ∀ n ∈ N.allNeighbors, Arithmetic.numLt Arithmetic.zero n.similarity = true
  contents : ∀ n ∈ N.allNeighbors, N.vector? n.ratings = some ratings

namespace Neighborhoods.Echoes

variable {N : Neighborhoods Exact} {ratings : RatingVector Exact} {item : Int}

theorem mem_items_iff (h : N.Echoes ratings) :
    item ∈ N.items.keys ↔ (ratings.get? item).isSome := by
  rw [h.items, IdMap.mem_keys_iff]

/-- The score of a rated item is the rating, shifted. -/
theorem meanVote_eq (h : N.Echoes ratings) (fit : List Exact → Rescaling Exact) {x : Exact}
    (hx : ratings.get? item = some x) :
    meanVote (N.ratingOnce (fittedCall fit) item) (N.neighbors item) =
      (fit ratings.known).forward x := by
  have hitem : item ∈ N.items.keys := h.mem_items_iff.mpr (Option.isSome_of_eq_some hx)
  refine meanVote_of_unanimous ((N.mem_items_iff item).mp hitem) ?_ ?_
  · intro n hn
    exact h.similarity n (mem_allNeighbors_iff.mpr ⟨item, hn⟩)
  · intro n hn
    rw [ratingOnce_fitted hn (h.contents n (mem_allNeighbors_iff.mpr ⟨item, hn⟩))]
    refine RatingVector.get_eq ?_
    rw [Rescaling.get?_apply, hx, Option.map_some]

/-- Item by item, the scores shifted back are the ratings. -/
theorem unapply_scoresOnce (h : N.Echoes ratings) (m : MeanCentering Exact) :
    (m.fit ratings.known).unapply (N.scoresOnce (fittedCall m.fit) N.items) = ratings := by
  refine IdMap.ext_get? fun item => ?_
  rw [Rescaling.get?_unapply]
  cases hx : ratings.get? item with
  | none =>
    have hitem : item ∉ N.items.keys := by
      rw [h.mem_items_iff, hx]
      nofun
    rw [get?_scoresOnce, IdMap.get?_of_not_mem hitem]
    rfl
  | some x =>
    have hitem : item ∈ N.items.keys := h.mem_items_iff.mpr (Option.isSome_of_eq_some hx)
    rw [get?_scoresOnce_of_mem hitem, h.meanVote_eq m.fit hx, Option.map_some,
      m.backward_forward fun _ => RatingVector.isAbsent_of_mem_known]

end Neighborhoods.Echoes

/-- **Known ratings come back.**  If all neighbors have the ratings of the user who asks, with
positive similarities, and vote on exactly the items that the user has rated, then mean centering
predicts the user's ratings, whatever its settings are.  A gap in the ratings stays a gap. -/
theorem Predictor.predict_known_ratings (m : MeanCentering Exact) {finder : Finder σ Exact}
    {user : Int} {ratings : RatingVector Exact} {N : Neighborhoods Exact} {s s' : σ}
    (h : N.Echoes ratings) (hfind : (finder.find user ratings none).runFrom s = (.ok N, s')) :
    (Predictor.predict ⟨finder, m.normalizer⟩ user ratings none).runFrom s =
      (.ok ratings, s') := by
  calc (Predictor.predict ⟨finder, m.normalizer⟩ user ratings none).runFrom s
      = (.ok ((m.fit ratings.known).unapply (N.scoresOnce (fittedCall m.fit) N.items)), s') :=
        predict_fitted hfind
    _ = (.ok ratings, s') := by rw [h.unapply_scoresOnce m]

/-- Neighbors 7 and 8 share a copy of the ratings 4 and 5/2, neighbor 9 has a copy of their own. -/
def echoing : Neighborhoods Exact where
  vectors := #[.ofPairs [(1, .value 4), (2, .value (5 / 2))],
    .ofPairs [(1, .value 4), (2, .value (5 / 2))]]
  byItem := .ofList [
    (1, [⟨7, .value 1, ⟨0⟩⟩, ⟨8, .value (1 / 3), ⟨0⟩⟩, ⟨9, .value 2, ⟨1⟩⟩]),
    (2, [⟨7, .value 1, ⟨0⟩⟩, ⟨8, .value (1 / 3), ⟨0⟩⟩, ⟨9, .value 2, ⟨1⟩⟩])]
  resolves := by decide
  nonempty := by decide

/-- Damping 5 towards the global mean -2. -/
def dampedDown : MeanCentering Exact where
  damping := .value 5
  globalMean := .value (-2)
  damping_nonneg := by decide
  damping_finite := by decide
  globalMean_finite := by decide

theorem predict_known_ratings_of_shared :
    echoing.Echoes (.ofPairs [(1, .value 4), (2, .value (5 / 2))]) ∧
      (Predictor.predict ⟨.constant echoing, dampedDown.normalizer⟩ 1
        (.ofPairs [(1, .value 4), (2, .value (5 / 2))]) none).runFrom () =
          (.ok (.ofPairs [(1, .value 4), (2, .value (5 / 2))]), ()) := by
  have h : echoing.Echoes (.ofPairs [(1, .value 4), (2, .value (5 / 2))]) :=
    ⟨by decide +kernel, by decide +kernel, by decide +kernel⟩
  exact ⟨h, Predictor.predict_known_ratings dampedDown h rfl⟩

end PeerRatings
