/-
# How the static finder chooses neighbors

For a user, the **candidates** are the users in the user's row of similarities who have a
row of ratings and are similar enough, never the user themself.  An item's neighbors are the candidates
who rated it, the most similar first: by the magnitude of the similarity, since strong dislike
tells as much as strong likeness, and among equals by ascending user.  Only the first
`maxNeighbors` are kept.

A candidate's vector is copied when the candidate is first listed, and all of the candidate's
entries share that copy.  So vectors are stored in the order of first listing, and a candidate who
is listed nowhere has none.
-/
import PeerRatings.Arithmetic.TotalOrder
import PeerRatings.Finder
import PeerRatings.Sorting
import PeerRatings.StaticFinder.Settings

namespace PeerRatings

/-- A user who may become a neighbor, with the recorded similarity and the ratings in the table. -/
structure Candidate where
  user : Int
  similarity : Float
  ratings : RatingVector Float
  deriving DecidableEq

namespace Candidate

/-! ## 1. The order of candidates -/

/-- The place of a candidate by similarity: the larger the magnitude, the larger the key. -/
def strength (c : Candidate) : Int := orderKey c.similarity.abs

/-- `a` comes before `b`, or is as good: larger magnitude first, then smaller user. -/
abbrev notAfter : Candidate → Candidate → Bool := Sorting.byKey fun c => (-c.strength, c.user)

theorem notAfter_iff {a b : Candidate} : a.notAfter b = true ↔
    b.strength < a.strength ∨ b.strength = a.strength ∧ a.user ≤ b.user := by
  rw [Sorting.byKey_iff]
  omega

end Candidate

namespace StaticFinder

variable {σ : Type}

/-! ## 2. Candidates and neighbors of an item -/

/-- Whether a similarity is large enough. -/
def reaches (f : StaticFinder) (similarity : Float) : Bool :=
  match f.minSimilarity? with
  | none => true
  | some least => Arithmetic.numLe least similarity

/-- The candidates for a user, by ascending user. -/
def candidates (f : StaticFinder) (user : Int) : List Candidate :=
  (f.similarities.row user).entries.filterMap fun e =>
    if e.1 ≠ user ∧ f.reaches e.2 = true then
      (f.table.row? e.1).map fun ratings => ⟨e.1, e.2, ratings⟩
    else none

/-- The neighbors that an item gets out of some candidates. -/
def eligible (f : StaticFinder) (candidates : List Candidate) (item : Int) : List Candidate :=
  (Sorting.sorted Candidate.notAfter (candidates.filter fun c => c.ratings.contains item)).take
    f.maxNeighbors

/-- The items of a request; without one, every item that some candidate rated. -/
def itemsFor (candidates : List Candidate) (scope : Option ItemSet) : ItemSet :=
  scope.getD (.ofList (candidates.flatMap fun c => c.ratings.keys))

/-! ## 3. Listing them -/

/-- Neighborhoods in the making, with the handle of each candidate who has been listed. -/
structure Gathering where
  found : Neighborhoods Float
  handles : IdMap Handle

namespace Gathering

/-- Nothing is listed yet. -/
def empty : Gathering := ⟨.empty, .empty⟩

/-- The handle of a candidate, whose vector is copied if this is the first time. -/
def handleFor (g : Gathering) (c : Candidate) : Handle × Gathering :=
  match g.handles.get? c.user with
  | some handle => (handle, g)
  | none =>
    let (handle, found) := g.found.addVector c.ratings
    (handle, ⟨found, g.handles.insert c.user handle⟩)

/-- List a candidate as a neighbor of an item. -/
def enlist (g : Gathering) (item : Int) (c : Candidate) : Except RequestError Gathering :=
  let (handle, g') := g.handleFor c
  (g'.found.addNeighbor item ⟨c.user, c.similarity, handle⟩).map fun found => { g' with found }

/-- List candidates one after the other as neighbors of an item. -/
def enlistAll (item : Int) : Gathering → List Candidate → Except RequestError Gathering
  | g, [] => .ok g
  | g, c :: rest =>
    match g.enlist item c with
    | .ok g' => enlistAll item g' rest
    | .error e => .error e

/-- List the neighbors of several items, one item after the other. -/
def enlistItems (choose : Int → List Candidate) :
    Gathering → List Int → Except RequestError Gathering
  | g, [] => .ok g
  | g, item :: rest =>
    match enlistAll item g (choose item) with
    | .ok g' => enlistItems choose g' rest
    | .error e => .error e

end Gathering

/-- The neighborhoods of a user. -/
def search (f : StaticFinder) (user : Int) (scope : Option ItemSet) :
    Except RequestError (Neighborhoods Float) :=
  let candidates := f.candidates user
  let items := itemsFor candidates scope
  (Gathering.enlistItems (f.eligible candidates) .empty items.keys).map Gathering.found

/-- The static finder as a finder.  It looks at the user and the items, never at the ratings that
come with a request. -/
def finder (f : StaticFinder) : Finder σ Float :=
  .ofFunction fun user _ scope => f.search user scope

end StaticFinder

end PeerRatings
