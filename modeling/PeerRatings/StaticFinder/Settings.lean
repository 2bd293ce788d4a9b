/-
# Settings of the static finder

The static finder serves neighbors from similarities that are known beforehand.  Its settings are
collected call by call and checked when a finder is built:

* a limit of zero neighbors is refused first;
* then the smallest pair, by user and then by neighbor, whose recorded similarity is not finite;
* then a missing table of ratings.

Only the final settings are checked.  A bad similarity that was recorded again with a good value
does no harm, and a good one that was replaced by a bad one does.

The checked facts are part of the type `StaticFinder`: the limit is positive and every similarity
is finite.
-/
import PeerRatings.RatingTable
import PeerRatings.SettingsError

namespace PeerRatings

/-- Similarities by user and neighbor. -/
abbrev SimilarityTable := IdMap (IdMap Float)

namespace SimilarityTable

/-- The recorded similarities to a user, by neighbor. -/
def row (t : SimilarityTable) (user : Int) : IdMap Float := (t.get? user).getD .empty

/-- Record the similarity of `neighbor` to `user`, in the place of an earlier one. -/
def record (t : SimilarityTable) (user neighbor : Int) (similarity : Float) : SimilarityTable :=
  t.insert user ((t.row user).insert neighbor similarity)

/-- All recorded similarities as `(user, neighbor, similarity)`, by user and then by neighbor. -/
def pairs (t : SimilarityTable) : List (Int × Int × Float) :=
  t.entries.flatMap fun e => e.2.entries.map fun p => (e.1, p.1, p.2)

/-- The smallest pair whose similarity is not finite. -/
def firstNonFinite? (t : SimilarityTable) : Option (Int × Int × Float) :=
  t.pairs.find? fun p => !Arithmetic.isFinite p.2.2

/-- Whether every recorded similarity is finite. -/
def AllFinite (t : SimilarityTable) : Prop :=
  ∀ p ∈ t.pairs, Arithmetic.isFinite p.2.2 = true

theorem firstNonFinite?_eq_none_iff {t : SimilarityTable} :
    t.firstNonFinite? = none ↔ t.AllFinite := by
  simp [firstNonFinite?, AllFinite]

/-- Recording a pair changes what is recorded for that pair and for no other. -/
theorem get?_row_record (t : SimilarityTable) (user neighbor u n : Int) (similarity : Float) :
    ((t.record user neighbor similarity).row u).get? n =
      if u = user ∧ n = neighbor then some similarity else (t.row u).get? n := by
  simp only [record, row, IdMap.get?_insert]
  by_cases hu : u = user
  · subst hu
    simp [IdMap.get?_insert]
  · simp [hu]

end SimilarityTable

/-- A finder that serves neighbors from recorded similarities. -/
structure StaticFinder where
  /-- The ratings of the users that may be neighbors. -/
  table : RatingTable
  /-- How similar users are. -/
  similarities : SimilarityTable
  /-- At most this many neighbors are kept per item. -/
  maxNeighbors : Nat
  /-- Neighbors below this similarity do not count, if it is set. -/
  minSimilarity? : Option Float
  maxNeighbors_pos : 0 < maxNeighbors
  similarities_finite : SimilarityTable.AllFinite similarities

namespace StaticFinder

/-- The number of neighbors kept when no limit was set. -/
def defaultMaxNeighbors : Nat := 30

/-- Settings as they are collected.  Similarities accumulate; the rest is set or not. -/
structure Settings where
  table? : Option RatingTable := none
  similarities : SimilarityTable := .empty
  maxNeighbors? : Option Nat := none
  minSimilarity? : Option Float := none

namespace Settings

/-- Set the ratings. -/
def withTable (s : Settings) (table : RatingTable) : Settings := { s with table? := some table }

/-- Record the similarity of `neighbor` to `user`. -/
def withSimilarity (s : Settings) (user neighbor : Int) (similarity : Float) : Settings :=
  { s with similarities := s.similarities.record user neighbor similarity }

/-- Set the limit on neighbors per item. -/
def withMaxNeighbors (s : Settings) (limit : Nat) : Settings :=
  { s with maxNeighbors? := some limit }

/-- Set the least similarity.  Any number will do, and so will the NaN, below which nothing is
and which nothing reaches. -/
def withMinSimilarity (s : Settings) (least : Float) : Settings :=
  { s with minSimilarity? := some least }

/-- Check the settings and build a finder. -/
def build (s : Settings) : Except (SettingsError Float) StaticFinder :=
  let limit := s.maxNeighbors?.getD defaultMaxNeighbors
  if hpos : 0 < limit then
    match hfin : s.similarities.firstNonFinite? with
    | some (user, neighbor, similarity) => .error (.badSimilarity user neighbor similarity)
    | none =>
      match s.table? with
      | none => .error (.missing .store)
      | some table =>
        .ok {
          table
          similarities := s.similarities
          maxNeighbors := limit
          minSimilarity? := s.minSimilarity?
          maxNeighbors_pos := hpos
          similarities_finite := SimilarityTable.firstNonFinite?_eq_none_iff.1 hfin }
  else .error .noNeighborsAllowed

end Settings

end StaticFinder

end PeerRatings
