/-
# Rating tables

A table holds the ratings of many users, one row per user, and **every rating in it is finite**.
That is part of the type: ratings enter as a list or a row at a time, both ways are checked, and a
refused row leaves the table as it was.

The ratings of a list are sorted out first: each goes behind the earlier ones of its user
(`Groups`), whoever else comes in between, and only when the list has come to its end is each group
made a row.

A refusal names the user and an item.  Of a user's new ratings it is the smallest item whose
rating is not finite; of a list of ratings it is the first such rating on the list, even if a
later one would have replaced it.
-/
import PeerRatings.RatingVector

namespace PeerRatings

/-- Whether every value of a vector is finite. -/
def RatingVector.AllFinite (v : RatingVector Float) : Prop :=
  ∀ e ∈ v.entries, Arithmetic.isFinite e.2 = true

/-- Finite ratings by user and item. -/
structure RatingTable where
  /-- The ratings of each user. -/
  rows : IdMap (RatingVector Float)
  /-- Every rating is finite. -/
  finite : ∀ row ∈ rows.entries, RatingVector.AllFinite row.2
  deriving DecidableEq

/-- The smallest key whose value is not finite. -/
def RatingVector.firstNonFinite? (v : RatingVector Float) : Option Int :=
  (v.entries.find? fun e => !Arithmetic.isFinite e.2).map Prod.fst

theorem RatingVector.firstNonFinite?_eq_none_iff {v : RatingVector Float} :
    v.firstNonFinite? = none ↔ v.AllFinite := by
  simp [firstNonFinite?, AllFinite]

theorem RatingVector.AllFinite.insertAll {v : RatingVector Float} (hv : v.AllFinite)
    {pairs : List (Int × Float)} (h : ∀ pair ∈ pairs, Arithmetic.isFinite pair.2 = true) :
    AllFinite (IdMap.insertAll v pairs) := by
  induction pairs generalizing v with
  | nil => exact hv
  | cons pair rest ih =>
    refine ih ?_ fun other hother => h other (List.mem_cons_of_mem _ hother)
    intro e he
    rcases IdMap.mem_insertEntry he with rfl | he
    · exact h pair List.mem_cons_self
    · exact hv e he

/-- Pairs with finite values make a vector with finite values. -/
theorem RatingVector.allFinite_ofPairs {pairs : List (Int × Float)}
    (h : ∀ pair ∈ pairs, Arithmetic.isFinite pair.2 = true) : (ofPairs pairs).AllFinite :=
  AllFinite.insertAll (by simp [AllFinite, IdMap.empty]) h

namespace RatingTable

/-! ## 1. Reading -/

/-- The table without users. -/
def empty : RatingTable := ⟨.empty, by simp [IdMap.empty]⟩

instance : Inhabited RatingTable := ⟨empty⟩

/-- The ratings of a user, if the user has a row. -/
def row? (t : RatingTable) (user : Int) : Option (RatingVector Float) := t.rows.get? user

/-- The users, ascending. -/
def users (t : RatingTable) : List Int := t.rows.keys

/-- The number of users. -/
def size (t : RatingTable) : Nat := t.rows.size

/-- Whether there is no row. -/
def isEmpty (t : RatingTable) : Bool := t.rows.isEmpty

/-- A row holds finite ratings only. -/
theorem allFinite_of_row? {t : RatingTable} {user : Int} {v : RatingVector Float}
    (h : t.row? user = some v) : v.AllFinite :=
  t.finite _ (IdMap.get?_eq_some_iff.1 h)

/-! ## 2. Writing -/

/-- Put a row of finite ratings in the place of a user's row. -/
def putRow (t : RatingTable) (user : Int) (v : RatingVector Float) (hv : v.AllFinite) :
    RatingTable where
  rows := t.rows.insert user v
  finite := fun row hrow => by
    rcases IdMap.mem_insertEntry hrow with rfl | hrow
    · exact hv
    · exact t.finite row hrow

/-- Replace a user's ratings.  The answer holds the ratings that were there before. -/
def replaceRow (t : RatingTable) (user : Int) (v : RatingVector Float) :
    Except RequestError (Option (RatingVector Float) × RatingTable) :=
  match h : v.firstNonFinite? with
  | some item => .error (.nonFiniteRating user item)
  | none => .ok (t.row? user, t.putRow user v (RatingVector.firstNonFinite?_eq_none_iff.1 h))

/-! ## 3. Tables of lists -/

/-- One rating of an item by a user. -/
structure Rating where
  user : Int
  item : Int
  value : Float
  deriving DecidableEq

/-- Ratings on their way into a table, sorted out by user. -/
structure Groups where
  /-- Items and values of each user, in the order in which they came. -/
  pairs : IdMap (List (Int × Float))
  /-- Every value is finite. -/
  finite : ∀ group ∈ pairs.entries, ∀ pair ∈ group.2, Arithmetic.isFinite pair.2 = true

namespace Groups

/-- Nothing has come yet. -/
def empty : Groups := ⟨.empty, by simp [IdMap.empty]⟩

/-- What has come for a user. -/
def pairsOf (g : Groups) (user : Int) : List (Int × Float) := (g.pairs.get? user).getD []

theorem finite_pairsOf (g : Groups) {user : Int} {pair : Int × Float} (h : pair ∈ g.pairsOf user) :
    Arithmetic.isFinite pair.2 = true := by
  unfold pairsOf at h
  cases hgroup : g.pairs.get? user with
  | none => simp [hgroup] at h
  | some group =>
    rw [hgroup] at h
    exact g.finite _ (IdMap.get?_eq_some_iff.1 hgroup) pair h

/-- Put a finite rating behind the others of its user. -/
def add (g : Groups) (r : Rating) (h : Arithmetic.isFinite r.value = true) : Groups where
  pairs := g.pairs.insert r.user (g.pairsOf r.user ++ [(r.item, r.value)])
  finite := fun group hgroup pair hpair => by
    rcases IdMap.mem_insertEntry hgroup with rfl | hgroup
    · rcases List.mem_append.1 hpair with hpair | hpair
      · exact g.finite_pairsOf hpair
      · rw [List.mem_singleton.1 hpair]
        exact h
    · exact g.finite group hgroup pair hpair

/-- Sort out a list of ratings, from left to right, up to the first one that is not finite. -/
def addAll : Groups → List Rating → Except RequestError Groups
  | g, [] => .ok g
  | g, r :: rest =>
    if h : Arithmetic.isFinite r.value = true then (g.add r h).addAll rest
    else .error (.nonFiniteRating r.user r.item)

/-- Every group becomes a row. -/
def table (g : Groups) : RatingTable where
  rows := g.pairs.mapEntries fun _ pairs => .ofPairs pairs
  finite := fun row hrow => by
    obtain ⟨group, hgroup, rfl⟩ := List.mem_map.1 hrow
    exact RatingVector.allFinite_ofPairs (g.finite group hgroup)

end Groups

/-- The table of a list of ratings.  When a user rates an item twice, the later rating counts. -/
def ofRatings (ratings : List Rating) : Except RequestError RatingTable :=
  (Groups.empty.addAll ratings).map Groups.table

/-! ## 4. The view -/

theorem row?_putRow (t : RatingTable) (user other : Int) (v : RatingVector Float)
    (hv : v.AllFinite) :
    (t.putRow user v hv).row? other = if other = user then some v else t.row? other :=
  IdMap.get?_insert ..

/-- A user's ratings are accepted exactly when all of them are finite. -/
theorem replaceRow_ok_iff (t : RatingTable) (user : Int) (v : RatingVector Float) :
    (∃ answer, t.replaceRow user v = .ok answer) ↔ v.AllFinite := by
  rw [← RatingVector.firstNonFinite?_eq_none_iff]
  unfold replaceRow
  split <;> simp_all

theorem row?_table (g : Groups) (user : Int) :
    g.table.row? user = (g.pairs.get? user).map RatingVector.ofPairs :=
  IdMap.get?_mapEntries ..

end RatingTable

end PeerRatings
