/-
# What can go wrong with a request

Three of the errors are about data that a caller hands in: two columns of different lengths, keys
out of order, a rating that is not finite.  One is about a handle that names no stored vector.
The last carries whatever a collaborator, a neighbor finder or a normalizer from outside this
library, has to say.

Each error keeps its cause as data; `RequestError.message` is the only place that puts it into
words.
-/

namespace PeerRatings

/-- The place of a ratings vector among the vectors of one collection of neighborhoods.  Two
handles are equal exactly when they name the same stored vector, whatever the vectors hold. -/
structure Handle where
  /-- The position, counted from 0 in the order in which vectors were added. -/
  index : Nat
  deriving DecidableEq, Repr, Inhabited

/-- The reasons for which a request fails. -/
inductive RequestError where
  /-- A column of keys and a column of values differ in length. -/
  | mismatchedLengths (keys values : Nat)
  /-- Keys that have to ascend strictly do not. -/
  | unsortedKeys
  /-- A rating that is to enter a table is not finite. -/
  | nonFiniteRating (user item : Int)
  /-- A handle names no stored vector. -/
  | unknownVector (handle : Handle)
  /-- A collaborator refused, for a reason of its own. -/
  | collaborator (reason : String)
  deriving DecidableEq, Repr

/-- The error in words. -/
def RequestError.message : RequestError → String
  | .mismatchedLengths keys values => s!"vector has {keys} keys but {values} values"
  | .unsortedKeys => "vector keys must be strictly ascending"
  | .nonFiniteRating user item => s!"rating of user {user} for item {item} is not finite"
  | .unknownVector handle => s!"no neighbor vector registered for VectorHandle({handle.index})"
  | .collaborator reason => reason

end PeerRatings
