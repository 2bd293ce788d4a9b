/-
# Neighbor finders

A finder answers, for one request, which users may vote on which items.  It owns the whole policy:
what similarity means, how many neighbors are kept, which are too dissimilar to count.  It is a
collaborator, so it may keep a state and may refuse.

A request comes with the user, the user's ratings, and the set of items asked for.  Without such a
set the finder answers for every item it has neighbors for.  The vectors of an answer belong to
the caller, who may change them.
-/
import PeerRatings.Collaborator
import PeerRatings.Neighborhoods

namespace PeerRatings

/-- A collaborator that finds neighbors with ratings over `α`, with state `σ`. -/
structure Finder (σ α : Type) where
  /-- Find the neighbors of a user with these ratings, for the items of a set or for all. -/
  find : Int → RatingVector α → Option ItemSet → CallM σ (Neighborhoods α)

namespace Finder

variable {σ α : Type}

/-- The finder that answers by a function and uses no state. -/
def ofFunction
    (find : Int → RatingVector α → Option ItemSet → Except RequestError (Neighborhoods α)) :
    Finder σ α where
  find user ratings scope := CallM.ofExcept (find user ratings scope)

@[simp] theorem find_ofFunction
    (find : Int → RatingVector α → Option ItemSet → Except RequestError (Neighborhoods α))
    (user : Int) (ratings : RatingVector α) (scope : Option ItemSet) (s : σ) :
    ((ofFunction find).find user ratings scope).runFrom s = (find user ratings scope, s) :=
  rfl

end Finder

end PeerRatings
