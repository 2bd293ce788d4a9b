/-
# Votes

The score of an item is the mean of its neighbors' ratings, weighted by similarity.  A neighbor
without a rating for the item has no vote.  A negative similarity pulls the score the other way
and still adds its magnitude to the weight:

    score  =  (s₁·r₁ + … + sₙ·rₙ) / (|s₁| + … + |sₙ|)

Both sums run in the order in which the neighbors are listed.  Where the weight is not positive,
nobody can vote and the score is absent.
-/
import PeerRatings.Neighborhoods

namespace PeerRatings

variable {α : Type} [Arithmetic α]

/-- One neighbor's vote on an item: how similar the voter is, and what the voter gives. -/
structure Ballot (α : Type) where
  similarity : α
  rating : α
  deriving DecidableEq

namespace Ballot

/-- The ratings, each times its similarity, summed from left to right. -/
def weightedSum (ballots : List (Ballot α)) : α :=
  ballots.foldl (fun sum b => sum + b.similarity * b.rating) Arithmetic.zero

/-- The magnitudes of the similarities, summed from left to right. -/
def totalWeight (ballots : List (Ballot α)) : α :=
  ballots.foldl (fun weight b => weight + Arithmetic.abs b.similarity) Arithmetic.zero

/-- The weighted mean of the ratings; absent where the weight is not positive. -/
def average (ballots : List (Ballot α)) : α :=
  if Arithmetic.numLt Arithmetic.zero (totalWeight ballots) then
    weightedSum ballots / totalWeight ballots
  else Arithmetic.absent

end Ballot

namespace Neighborhoods

/-- The rating that the vector behind a handle has for an item; absent without such a vector. -/
def rating (N : Neighborhoods α) (handle : Handle) (item : Int) : α :=
  ((N.vector? handle).map fun v => RatingVector.get v item).getD Arithmetic.absent

/-- The votes on an item: one for each neighbor who has a rating for it. -/
def ballots (N : Neighborhoods α) (item : Int) : List (Ballot α) :=
  (N.neighbors item).filterMap fun n =>
    let r := N.rating n.ratings item
    if Arithmetic.isAbsent r then none else some ⟨n.similarity, r⟩

/-- The score of an item. -/
def score (N : Neighborhoods α) (item : Int) : α := Ballot.average (N.ballots item)

/-- The scores of a set of items. -/
def scores (N : Neighborhoods α) (items : ItemSet) : RatingVector α :=
  items.mapEntries fun item _ => N.score item

@[simp] theorem keys_scores (N : Neighborhoods α) (items : ItemSet) :
    (N.scores items).keys = items.keys :=
  IdMap.keys_mapEntries ..

/-- Scores are given for the items asked for and for no other. -/
theorem get?_scores (N : Neighborhoods α) (items : ItemSet) (item : Int) :
    (N.scores items).get? item = (items.get? item).map fun _ => N.score item :=
  IdMap.get?_mapEntries ..

end Neighborhoods

end PeerRatings
