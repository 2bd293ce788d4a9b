/-
# Predictions with a fitted normalizer

A fitted normalizer chooses a rescaling from the ratings that it is shown and from nothing else.
So an entry votes with the rating of its vector, rescaled as **its own vector** asks for
(`ratingOnce_fitted`): which entry came first under a handle, and which user it belongs to, does
not show.  A prediction with such a normalizer refuses nothing once the finder has answered
(`predict_fitted`).

All normalizers of this library are fitted, in double precision and in exact arithmetic.
-/
import PeerRatings.Proofs.Prediction.Scores

namespace PeerRatings

variable {σ α : Type} [Arithmetic α] {fit : List α → Rescaling α}

/-- How a fitted normalizer answers a call, whoever the user is. -/
def fittedCall (fit : List α → Rescaling α) (_ : Int) (v : RatingVector α) :
    Except RequestError Unit × RatingVector α :=
  (.ok (), (fit v.known).apply v)

/-- **An entry votes with its own vector**, rescaled as this vector asks for. -/
theorem Neighborhoods.ratingOnce_fitted {N : Neighborhoods α} {item : Int} {n : Neighbor α}
    {v : RatingVector α} (hn : n ∈ N.neighbors item) (hv : N.vector? n.ratings = some v) :
    N.ratingOnce (fittedCall fit) item n = RatingVector.get ((fit v.known).apply v) item := by
  obtain ⟨user, w, -, hw, hcall⟩ :=
    exists_firstCall (mem_handlesMet_iff.mpr ⟨item, n, hn, rfl⟩)
  obtain rfl := Option.some.inj (hv.symm.trans hw)
  rw [ratingOnce, hcall]
  rfl

theorem Predictor.predict_fitted {finder : Finder σ α} {user : Int} {ratings : RatingVector α}
    {items? : Option (List Int)} {N : Neighborhoods α} {s s' : σ}
    (hfind : (finder.find user ratings (items?.map ItemSet.ofList)).runFrom s = (.ok N, s')) :
    (Predictor.predict ⟨finder, .fitted fit⟩ user ratings items?).runFrom s =
      (.ok ((fit ratings.known).unapply (N.scoresOnce (fittedCall fit) (N.scope items?))), s') :=
  predict_ofFunctions hfind (fun _ _ => rfl) rfl

/-- **A pass with a fitted normalizer goes through**, and a prediction counts the votes on what it
leaves. -/
theorem Predictor.exists_normalized_fitted {finder : Finder σ α} {user : Int}
    {ratings : RatingVector α} {items? : Option (List Int)} {N : Neighborhoods α} {s s' : σ}
    (hfind : (finder.find user ratings (items?.map ItemSet.ofList)).runFrom s = (.ok N, s')) :
    ∃ N', ((Normalizer.fitted fit).normalized N).runFrom s' = (.ok N', s') ∧
      N.NormalizedOnce N' (N.firstCalls.map fun call => (fit call.2.known).apply call.2) ∧
      (Predictor.predict ⟨finder, .fitted fit⟩ user ratings items?).runFrom s =
        (.ok ((fit ratings.known).unapply (N'.scores (N.scope items?))), s') := by
  obtain ⟨N', hrun, honce⟩ := Normalizer.normalized_ofFunctions (f := fittedCall fit)
    (g := fun _ v => .ok (fit v.known)) s' fun _ _ => rfl
  have hfitted : ((Normalizer.fitted fit).normalized N).runFrom s' = (.ok N', s') := hrun
  refine ⟨N', hfitted, honce, ?_⟩
  simp only [predict, CallM.runFrom_bind, hfind, hfitted, Normalizer.transformation_fitted,
    CallM.runFrom_pure]
  rfl

/-- The finder that has one answer for everybody. -/
abbrev Finder.constant (N : Neighborhoods α) : Finder Unit α := .ofFunction fun _ _ _ => .ok N

end PeerRatings
