/-
# Predictions

A predictor asks its finder for neighbors, has their ratings normalized, lets them vote on each
item, and maps the scores back onto the scale of the user who asked:

    find  →  normalize, once per neighbor vector  →  vote  →  make the transformation  →  map back

The collaborators are called in this order, and the first refusal ends the prediction.  The
library itself refuses nothing on the way: the items asked for are a set whatever list they came
in, and every neighbor's handle is known to resolve.

A prediction covers exactly the items asked for, or, when no items were named, every item that has
neighbors.  Items that nobody can vote on are there, with an absent score to map back.
-/
import PeerRatings.Finder
import PeerRatings.Normalization.Pass
import PeerRatings.Ranking
import PeerRatings.SettingsError
import PeerRatings.Vote

namespace PeerRatings

/-- A finder and a normalizer that work together. -/
structure Predictor (σ τ α : Type) where
  finder : Finder σ α
  normalizer : Normalizer σ τ α

namespace Predictor

variable {σ τ α : Type}

/-- Put a predictor together from parts that may be missing.  A missing finder is reported before
a missing normalizer. -/
def ofParts? (finder? : Option (Finder σ α)) (normalizer? : Option (Normalizer σ τ α)) :
    Except (SettingsError α) (Predictor σ τ α) :=
  match finder?, normalizer? with
  | some finder, some normalizer => .ok ⟨finder, normalizer⟩
  | none, _ => .error (.missing .finder)
  | some _, none => .error (.missing .normalizer)

/-- Predict a user's ratings: for the items of a list, or for every item with neighbors. -/
def predict [Arithmetic α] [Transformation τ α] (p : Predictor σ τ α) (user : Int)
    (ratings : RatingVector α) (items? : Option (List Int)) : CallM σ (RatingVector α) := do
  let requested := items?.map ItemSet.ofList
  let found ← p.finder.find user ratings requested
  let normalized ← p.normalizer.normalized found
  let scores := normalized.scores (requested.getD found.items)
  let transformation ← p.normalizer.transformation user ratings
  pure (Transformation.unapply transformation scores)

/-- Predict a user's rating of one item; absent when nobody can vote on it. -/
def predictOne [Arithmetic α] [Transformation τ α] (p : Predictor σ τ α) (user : Int)
    (ratings : RatingVector α) (item : Int) : CallM σ α := do
  let predictions ← p.predict user ratings (some [item])
  pure (predictions.get item)

/-- The `n` candidates with the highest predictions, among those the user has not rated. -/
def recommend [Transformation τ Float] (p : Predictor σ τ Float) (user : Int)
    (ratings : RatingVector Float) (candidates : List Int) (n : Nat) :
    CallM σ (Ranking Int) := do
  let predictions ← p.predict user ratings (some candidates)
  pure ((Ranking.ofPredictions predictions ratings).take n)

end Predictor

end PeerRatings
