/-
# Sorting out a list of ratings

Users come mixed up on a list of ratings.  A table of the list is made in two steps, first one group
per user and then one row per group, and this file says what the first step leaves: **the group of a
user has what the list has for that user, in the order of the list** (`Groups.Holds`).  Where the
ratings of other users stand in between cannot be seen in it.

One rating more belongs at the end of one group (`Groups.Holds.add`), so the groups of a list that
is read from left to right are those of what has been read (`Groups.Holds.exists_addAll`).  Reading
ends early at a rating that is not finite, and nothing is left then but the refusal.

A row is the vector of a group.  So a table of a list has a row for each user on the list, made from
the user's own ratings alone (`row?_of_ofRatings`).
-/
import PeerRatings.RatingTable

namespace PeerRatings.RatingTable

variable {t : RatingTable} {ratings : List Rating} {user item : Int}

/-! ## 1. What a list has for a user -/

/-- The items and values that a list has for a user, in the order of the list. -/
def groupOf (ratings : List Rating) (user : Int) : List (Int × Float) :=
  (ratings.filter fun r => r.user == user).map fun r => (r.item, r.value)

theorem groupOf_concat (ratings : List Rating) (r : Rating) (user : Int) :
    groupOf (ratings ++ [r]) user =
      groupOf ratings user ++ if r.user = user then [(r.item, r.value)] else [] := by
  rw [groupOf, List.filter_append, List.map_append, ← groupOf]
  by_cases h : r.user = user <;> simp [h]

theorem mem_groupOf_iff {x : Float} :
    (item, x) ∈ groupOf ratings user ↔ ⟨user, item, x⟩ ∈ ratings := by
  simp only [groupOf, List.mem_map, List.mem_filter, beq_iff_eq]
  constructor
  · rintro ⟨r, ⟨hr, rfl⟩, heq⟩
    obtain ⟨rfl, rfl⟩ := Prod.mk.inj heq
    exact hr
  · intro h
    exact ⟨_, ⟨h, rfl⟩, rfl⟩

/-- The group is not empty exactly if the user is on the list. -/
theorem groupOf_ne_nil_iff : groupOf ratings user ≠ [] ↔ ∃ r ∈ ratings, r.user = user := by
  rw [Ne, groupOf, List.map_eq_nil_iff, List.filter_eq_nil_iff]
  simp

/-! ## 2. One rating, and then a list -/

namespace Groups

variable {g : Groups} {seen : List Rating}

/-- Each user of a list has the group of the list, and nobody else has one. -/
def Holds (g : Groups) (seen : List Rating) : Prop :=
  ∀ user, g.pairs.get? user = if groupOf seen user = [] then none else some (groupOf seen user)

theorem holds_empty : empty.Holds [] := fun _ => rfl

theorem Holds.pairsOf (h : g.Holds seen) (user : Int) : g.pairsOf user = groupOf seen user := by
  rw [Groups.pairsOf, h]
  split
  · rename_i hnone
    rw [hnone, Option.getD_none]
  · rw [Option.getD_some]

/-- **One rating more goes behind those of its user.** -/
theorem Holds.add (h : g.Holds seen) (r : Rating) (hr : Arithmetic.isFinite r.value = true) :
    (g.add r hr).Holds (seen ++ [r]) := by
  intro user
  change (g.pairs.insert r.user (g.pairsOf r.user ++ [(r.item, r.value)])).get? user = _
  rw [IdMap.get?_insert, groupOf_concat, h.pairsOf]
  by_cases huser : user = r.user
  · subst huser
    simp
  · rw [if_neg huser, if_neg (Ne.symm huser), List.append_nil, h]

/-- **A list of finite ratings is sorted out to its end.** -/
theorem Holds.exists_addAll (h : g.Holds seen)
    (hfinite : ∀ r ∈ ratings, Arithmetic.isFinite r.value = true) :
    ∃ g', g.addAll ratings = .ok g' ∧ g'.Holds (seen ++ ratings) := by
  induction ratings generalizing g seen with
  | nil => exact ⟨g, rfl, by rwa [List.append_nil]⟩
  | cons r rest ih =>
    have hr := hfinite r List.mem_cons_self
    obtain ⟨g', hrest, hholds⟩ := ih (h.add r hr) fun q hq => hfinite q (List.mem_cons_of_mem _ hq)
    refine ⟨g', ?_, ?_⟩
    · rw [addAll, dif_pos hr, hrest]
    · rwa [List.append_assoc, List.singleton_append] at hholds

/-- A rating that is not finite ends the list there, whatever would come after it. -/
theorem addAll_of_first_fault {before after : List Rating} {r : Rating}
    (hbefore : ∀ q ∈ before, Arithmetic.isFinite q.value = true)
    (hr : ¬ Arithmetic.isFinite r.value = true) (g : Groups) :
    g.addAll (before ++ r :: after) = .error (.nonFiniteRating r.user r.item) := by
  induction before generalizing g with
  | nil => rw [List.nil_append, addAll, dif_neg hr]
  | cons q before ih =>
    rw [List.cons_append, addAll, dif_pos (hbefore q List.mem_cons_self)]
    exact ih (fun q' hq' => hbefore q' (List.mem_cons_of_mem _ hq')) _

end Groups

/-! ## 3. The table -/

/-- The refusal names the first rating that is not finite. -/
theorem ofRatings_of_first_fault {before after : List Rating} {r : Rating}
    (hbefore : ∀ q ∈ before, Arithmetic.isFinite q.value = true)
    (hr : ¬ Arithmetic.isFinite r.value = true) :
    ofRatings (before ++ r :: after) = .error (.nonFiniteRating r.user r.item) := by
  rw [ofRatings, Groups.addAll_of_first_fault hbefore hr]
  rfl

/-- **A row is made from the ratings of its user alone**, and a user who is not on the list has
none. -/
theorem exists_ofRatings (hfinite : ∀ r ∈ ratings, Arithmetic.isFinite r.value = true) :
    ∃ t, ofRatings ratings = .ok t ∧ ∀ user, t.row? user =
      if groupOf ratings user = [] then none else some (.ofPairs (groupOf ratings user)) := by
  obtain ⟨g, hsorted, hholds⟩ := Groups.holds_empty.exists_addAll hfinite
  refine ⟨g.table, by rw [ofRatings, hsorted]; rfl, fun user => ?_⟩
  rw [row?_table, hholds, List.nil_append]
  split <;> rfl

/-- A list is accepted exactly if all of its ratings are finite. -/
theorem ofRatings_ok_iff :
    (∃ t, ofRatings ratings = .ok t) ↔ ∀ r ∈ ratings, Arithmetic.isFinite r.value = true := by
  refine ⟨fun ⟨t, hbuilt⟩ => ?_, fun hfinite => ?_⟩
  · cases hfind : ratings.find? fun r => !Arithmetic.isFinite r.value with
    | none => simpa using hfind
    | some r =>
      obtain ⟨hr, before, after, rfl, hbefore⟩ := List.find?_eq_some_iff_append.mp hfind
      rw [ofRatings_of_first_fault (by simpa using hbefore) (by simpa using hr)] at hbuilt
      cases hbuilt
  · obtain ⟨t, hbuilt, -⟩ := exists_ofRatings hfinite
    exact ⟨t, hbuilt⟩

theorem row?_of_ofRatings (h : ofRatings ratings = .ok t) (user : Int) : t.row? user =
    if groupOf ratings user = [] then none else some (.ofPairs (groupOf ratings user)) := by
  obtain ⟨t', hbuilt, hrow⟩ := exists_ofRatings (ofRatings_ok_iff.mp ⟨t, h⟩)
  rw [Except.ok.inj (h.symm.trans hbuilt), hrow]

/-- A row is the vector of its user's ratings. -/
theorem ofPairs_groupOf (h : ofRatings ratings = .ok t) {row : RatingVector Float}
    (hrow : t.row? user = some row) : .ofPairs (groupOf ratings user) = row := by
  rw [row?_of_ofRatings h] at hrow
  split at hrow
  · cases hrow
  · exact Option.some.inj hrow

end PeerRatings.RatingTable
