/-
# Standard scores

Each user's ratings are shifted by their mean and divided by their standard deviation, the one of
the ratings as a whole population.  Ratings without spread have nothing to divide by: when the
computed deviation does not exceed `smallestSpread`, the ratings are only shifted.  A user without
ratings is left alone, by a shift of zero and a scale of one.

This normalizer is defined in double precision only, since it takes a square root.  Its two sums
start from `-0.0`, the number that a sum can start from without changing it: even a sum of
negative zeros stays a negative zero.
-/
import PeerRatings.Normalization.Normalizer

namespace PeerRatings.MeanVariance

variable {σ : Type}

/-- A deviation up to this one, `2 ^ -52`, counts as no spread. -/
def smallestSpread : Float := 1.0 / 4503599627370496.0

/-- The sum of numbers from left to right, starting from `-0.0`. -/
def total (xs : List Float) : Float := xs.foldl (· + ·) (-0.0)

/-- The mean of ratings. -/
def mean (ratings : List Float) : Float := total ratings / Float.ofNat ratings.length

/-- The mean square of the distances from the mean. -/
def variance (ratings : List Float) : Float :=
  let center := mean ratings
  total (ratings.map fun r => (r - center) * (r - center)) / Float.ofNat ratings.length

/-- The scale of ratings: their standard deviation, or one if they have no spread. -/
def scale (ratings : List Float) : Float :=
  let deviation := (variance ratings).sqrt
  if smallestSpread < deviation then deviation else 1.0

/-- Shift by the mean and scale by the spread. -/
def fit (ratings : List Float) : Rescaling Float :=
  if ratings.isEmpty then .shiftScale 0.0 1.0 else .shiftScale (mean ratings) (scale ratings)

/-- Standard scores as a normalizer. -/
def normalizer : Normalizer σ (Rescaling Float) Float := .fitted fit

end PeerRatings.MeanVariance
