/-
# What can go wrong with settings

Settings are collected first and checked when the thing they describe is built, so one check may
see several faults.  Each cause below is one fault; which of several is reported is decided where
the check is made.  A part that was never supplied is reported only when all values are in order.
-/
import PeerRatings.Decimal.Text

namespace PeerRatings

/-- A part without which nothing can be built: the ratings to draw neighbors from, the source of
neighbors, the normalization of ratings. -/
inductive Part where
  | store
  | finder
  | normalizer
  deriving DecidableEq, Repr

/-- The name of a part. -/
def Part.name : Part → String
  | .store => "store"
  | .finder => "finder"
  | .normalizer => "normalizer"

/-- The reasons for which settings are refused. -/
inductive SettingsError (α : Type) where
  /-- A part was not supplied. -/
  | missing (part : Part)
  /-- A damping that is negative or not finite. -/
  | badDamping (damping : α)
  /-- A global mean that is not finite. -/
  | badGlobalMean (mean : α)
  /-- A limit that would keep no neighbor at all. -/
  | noNeighborsAllowed
  /-- A similarity of `neighbor` to `user` that is not finite. -/
  | badSimilarity (user neighbor : Int) (similarity : α)
  deriving DecidableEq

/-- The fault in words. -/
def SettingsError.message : SettingsError Float → String
  | .missing part => s!"`{part.name}` must be initialized"
  | .badDamping damping =>
    s!"damping must be finite and non-negative, got {Decimal.text damping}"
  | .badGlobalMean mean => s!"global mean must be finite, got {Decimal.text mean}"
  | .noNeighborsAllowed => "max_neighbors must be positive"
  | .badSimilarity user neighbor similarity =>
    s!"similarity of {neighbor} to {user} is not finite: {Decimal.text similarity}"

end PeerRatings
