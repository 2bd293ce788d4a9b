/-
# The methods of normalization

The library knows three ways to normalize in double precision: not at all, by mean centering, and
by standard scores.  A `Method` is one of them, with its settings.  All three are fitted, so
everything about a method follows from the rescaling it chooses for a list of ratings.
-/
import PeerRatings.Normalization.MeanCentering
import PeerRatings.Normalization.MeanVariance

namespace PeerRatings

/-- A way to normalize ratings. -/
inductive Method where
  /-- Ratings stay as they are. -/
  | identity
  /-- Ratings are centered on a damped mean. -/
  | meanCentering (settings : MeanCentering Float)
  /-- Ratings become standard scores. -/
  | meanVariance

namespace Method

variable {σ : Type}

/-- The rescaling that the method chooses for a user with the given ratings. -/
def fit : Method → List Float → Rescaling Float
  | identity => fun _ => .identity
  | meanCentering settings => settings.fit
  | meanVariance => MeanVariance.fit

/-- The method as a normalizer. -/
def normalizer : Method → Normalizer σ (Rescaling Float) Float
  | identity => .identity
  | meanCentering settings => settings.normalizer
  | meanVariance => MeanVariance.normalizer

/-- **All methods are fitted.** -/
theorem normalizer_eq_fitted (m : Method) :
    (m.normalizer : Normalizer σ (Rescaling Float) Float) = .fitted m.fit := by
  cases m <;> rfl

end Method

end PeerRatings
