/-
# Tables after any replacements

A table comes about without users or from a list of ratings, and is then changed by replacing the
ratings of one user after the other.  Some replacements are accepted and some are refused, in any
order.  What can be read of the table afterwards is said here by the calls alone:

* a user has the ratings of the **last accepted replacement** for that user, or, without one, those
  that the table came with (`row?_after`);
* a replacement is accepted exactly if all of its ratings are finite, and one that is refused
  leaves the table as it was and names the smallest item at fault.

That every rating in a table is finite is part of its type.  Here it comes out once more as a fact
about what was let in: a row that was put passed the check as a whole, and a rating from a list
passed it by itself.  So the proof that the type carries is not used, only the two checks are.
-/
import Mathlib.Data.List.Induction
import Mathlib.Order.Bounds.Basic
import PeerRatings.Proofs.RatingTable.Grouping
import PeerRatings.Proofs.Vectors.Pairs

namespace PeerRatings

/-! ## 1. Searching a list -/

/-- In a list with ascending keys, the first element with a property has the least key. -/
theorem isLeast_key_of_find? {α β : Type} [Preorder β] {key : α → β} {p : α → Bool} {l : List α}
    {a : α} (hascending : l.Pairwise fun a b => key a < key b) (h : l.find? p = some a) :
    IsLeast {k | ∃ b ∈ l, p b = true ∧ key b = k} (key a) := by
  obtain ⟨ha, before, after, rfl, hbefore⟩ := List.find?_eq_some_iff_append.mp h
  refine ⟨⟨a, List.mem_append_right _ List.mem_cons_self, ha, rfl⟩, ?_⟩
  rintro _ ⟨b, hmem, hb, rfl⟩
  rcases List.mem_append.mp hmem with hmem | hmem
  · -- whatever stands before the first one does not have the property
    have hnot := hbefore b hmem
    simp [hb] at hnot
  · rcases List.mem_cons.mp hmem with rfl | hmem
    · exact le_refl _
    · have hbehind := (List.pairwise_append.mp hascending).2.1
      exact ((List.pairwise_cons.mp hbehind).1 b hmem).le

/-- Asked from the last one on, one more call answers first. -/
theorem findSome?_reverse_concat {α β : Type} (answer? : α → Option β) (calls : List α) (c : α) :
    (calls ++ [c]).reverse.findSome? answer? =
      (answer? c).or (calls.reverse.findSome? answer?) := by
  rw [List.reverse_append, List.findSome?_append, List.reverse_singleton, List.findSome?_singleton]

/-! ## 2. The item at fault -/

namespace RatingVector

variable {v : RatingVector Float} {item : Int}

instance (v : RatingVector Float) : Decidable v.AllFinite :=
  inferInstanceAs (Decidable (∀ e ∈ v.entries, Arithmetic.isFinite e.2 = true))

theorem allFinite_iff :
    v.AllFinite ↔ ∀ item x, v.get? item = some x → Arithmetic.isFinite x = true := by
  constructor
  · intro h item x hx
    exact h (item, x) (IdMap.get?_eq_some_iff.mp hx)
  · intro h e he
    exact h e.1 e.2 (IdMap.get?_eq_some_iff.mpr he)

/-- The items of a vector whose ratings are not finite. -/
def faults (v : RatingVector Float) : Set Int :=
  {item | ∃ x, v.get? item = some x ∧ Arithmetic.isFinite x = false}

theorem isLeast_of_firstNonFinite? (h : v.firstNonFinite? = some item) :
    IsLeast v.faults item := by
  obtain ⟨e, hfind, rfl⟩ := Option.map_eq_some_iff.mp h
  have hfaults : v.faults =
      {key | ∃ e ∈ v.entries, (!Arithmetic.isFinite e.2) = true ∧ e.1 = key} := by
    ext key
    simp [faults, IdMap.get?_eq_some_iff]
  rw [hfaults]
  exact isLeast_key_of_find? v.ascending hfind

/-- **The check names the smallest item at fault.** -/
theorem firstNonFinite?_eq_some_iff :
    v.firstNonFinite? = some item ↔ IsLeast v.faults item := by
  refine ⟨isLeast_of_firstNonFinite?, fun hleast => ?_⟩
  cases hfirst : v.firstNonFinite? with
  | none =>
    obtain ⟨x, hx, hfault⟩ := hleast.1
    have hfinite := allFinite_iff.mp (firstNonFinite?_eq_none_iff.mp hfirst) item x hx
    rw [hfinite] at hfault
    cases hfault
  | some other =>
    rw [(isLeast_of_firstNonFinite? hfirst).unique hleast]

/-- Where not every rating is finite there is a smallest item at fault. -/
theorem exists_isLeast_faults (h : ¬ v.AllFinite) : ∃ item, IsLeast v.faults item := by
  cases hfirst : v.firstNonFinite? with
  | none => exact absurd (firstNonFinite?_eq_none_iff.mp hfirst) h
  | some item => exact ⟨item, isLeast_of_firstNonFinite? hfirst⟩

end RatingVector

/-! ## 3. What a table comes with -/

namespace RatingTable

variable {t t' : RatingTable} {user item : Int}

/-- A table as it comes about: without users, or from a list of ratings. -/
inductive Origin : RatingTable → Prop where
  | empty : Origin .empty
  | ofRatings {ratings : List Rating} {t : RatingTable} : ofRatings ratings = .ok t → Origin t

theorem Origin.allFinite (h : Origin t) {v : RatingVector Float} (hrow : t.row? user = some v) :
    v.AllFinite := by
  cases h with
  | empty => cases hrow
  | @ofRatings ratings _ hbuilt =>
    refine RatingVector.allFinite_iff.mpr fun item x hx => ?_
    rw [← ofPairs_groupOf hbuilt hrow, RatingVector.ofPairs, IdMap.get?_ofList] at hx
    -- what stands in a row was on the list, and passed the check there
    have hlisted : ⟨user, item, x⟩ ∈ ratings := mem_groupOf_iff.mp (IdMap.mem_of_lastOf? hx)
    exact ofRatings_ok_iff.mp ⟨t, hbuilt⟩ ⟨user, item, x⟩ hlisted

/-! ## 4. One replacement -/

/-- New ratings for a user. -/
structure Replacement where
  user : Int
  ratings : RatingVector Float

/-- Make a replacement: its answer, and the table that it leaves.  One that is refused leaves the
table that it found. -/
def perform (t : RatingTable) (c : Replacement) :
    Except RequestError (Option (RatingVector Float)) × RatingTable :=
  match t.replaceRow c.user c.ratings with
  | .ok (previous, t') => (.ok previous, t')
  | .error e => (.error e, t)

/-- `t'` has new ratings for one user, and is otherwise the table `t`. -/
structure RowReplaced (t t' : RatingTable) (user : Int) (ratings : RatingVector Float) : Prop where
  row : t'.row? user = some ratings
  others : ∀ other, other ≠ user → t'.row? other = t.row? other
  users_ascending : t'.users.Pairwise (· < ·)
  mem_users_iff : ∀ other, other ∈ t'.users ↔ other = user ∨ other ∈ t.users

theorem mem_users_iff : user ∈ t.users ↔ (t.row? user).isSome := IdMap.mem_keys_iff

theorem rowReplaced_putRow (t : RatingTable) (user : Int) {v : RatingVector Float}
    (hv : v.AllFinite) : t.RowReplaced (t.putRow user v hv) user v where
  row := by rw [row?_putRow, if_pos rfl]
  others := fun other hother => by rw [row?_putRow, if_neg hother]
  users_ascending := IdMap.keys_ascending _
  mem_users_iff := by
    intro other
    rw [mem_users_iff, mem_users_iff, row?_putRow]
    by_cases hother : other = user <;> simp [hother]

theorem replaceRow_of_allFinite (t : RatingTable) (user : Int) {v : RatingVector Float}
    (h : v.AllFinite) : t.replaceRow user v = .ok (t.row? user, t.putRow user v h) := by
  rw [replaceRow]
  split
  · rename_i hfault
    rw [RatingVector.firstNonFinite?_eq_none_iff.mpr h] at hfault
    cases hfault
  · rfl

theorem replaceRow_of_isLeast (t : RatingTable) (user : Int) {v : RatingVector Float}
    {item : Int} (h : IsLeast v.faults item) :
    t.replaceRow user v = .error (.nonFiniteRating user item) := by
  have hfault := RatingVector.firstNonFinite?_eq_some_iff.mpr h
  rw [replaceRow]
  split
  · rename_i other hother
    rw [Option.some.inj (hother.symm.trans hfault)]
  · rename_i hnone
    rw [hfault] at hnone
    cases hnone

/-- Finite ratings are accepted, and the answer holds those before. -/
theorem perform_of_allFinite (t : RatingTable) {c : Replacement} (h : c.ratings.AllFinite) :
    ∃ t', t.perform c = (.ok (t.row? c.user), t') ∧ t.RowReplaced t' c.user c.ratings := by
  refine ⟨t.putRow c.user c.ratings h, ?_, t.rowReplaced_putRow c.user h⟩
  rw [perform, replaceRow_of_allFinite t c.user h]

/-- Ratings with a fault are refused, and the table stays as it was. -/
theorem perform_of_isLeast (t : RatingTable) {c : Replacement} {item : Int}
    (h : IsLeast c.ratings.faults item) :
    t.perform c = (.error (.nonFiniteRating c.user item), t) := by
  rw [perform, replaceRow_of_isLeast t c.user h]

/-- The ratings that a replacement gives a user, if it is for that user and accepted. -/
def Replacement.row? (c : Replacement) (user : Int) : Option (RatingVector Float) :=
  if c.user = user ∧ c.ratings.AllFinite then some c.ratings else none

/-- **A replacement that is accepted for a user hides the row before**, and any other shows it. -/
theorem row?_perform (t : RatingTable) (c : Replacement) (user : Int) :
    (t.perform c).2.row? user = (c.row? user).or (t.row? user) := by
  by_cases hfinite : c.ratings.AllFinite
  · obtain ⟨t', hperform, hreplaced⟩ := t.perform_of_allFinite hfinite
    rw [hperform, Replacement.row?]
    by_cases huser : c.user = user
    · subst huser
      rw [if_pos ⟨rfl, hfinite⟩, hreplaced.row]
      rfl
    · rw [if_neg fun h => huser h.1, hreplaced.others user (Ne.symm huser)]
      rfl
  · obtain ⟨item, hleast⟩ := RatingVector.exists_isLeast_faults hfinite
    rw [t.perform_of_isLeast hleast, Replacement.row?, if_neg fun h => hfinite h.2]
    rfl

/-! ## 5. Any number of replacements -/

/-- The table after replacements, one after the other. -/
def after (t : RatingTable) (calls : List Replacement) : RatingTable :=
  calls.foldl (fun t c => (t.perform c).2) t

/-- The ratings that the last replacement gives a user which is for the user and accepted. -/
def lastRow? (calls : List Replacement) (user : Int) : Option (RatingVector Float) :=
  calls.reverse.findSome? fun c => c.row? user

theorem after_concat (t : RatingTable) (calls : List Replacement) (c : Replacement) :
    t.after (calls ++ [c]) = ((t.after calls).perform c).2 := by
  rw [after, List.foldl_append, List.foldl_cons, List.foldl_nil, after]

theorem lastRow?_concat (calls : List Replacement) (c : Replacement) (user : Int) :
    lastRow? (calls ++ [c]) user = (c.row? user).or (lastRow? calls user) :=
  findSome?_reverse_concat (fun c : Replacement => c.row? user) calls c

/-- **After replacements a user has the ratings accepted last**, or those from before. -/
theorem row?_after (t : RatingTable) (calls : List Replacement) (user : Int) :
    (t.after calls).row? user = (lastRow? calls user).or (t.row? user) := by
  induction calls using List.reverseRecOn with
  | nil => rfl
  | append_singleton calls c ih =>
    rw [after_concat, row?_perform, ih, lastRow?_concat, Option.or_assoc]

/-- A row that was accepted is finite. -/
theorem allFinite_of_lastRow? {calls : List Replacement} {v : RatingVector Float}
    (h : lastRow? calls user = some v) : v.AllFinite := by
  obtain ⟨c, -, hrow⟩ := List.exists_of_findSome?_eq_some h
  rw [Replacement.row?] at hrow
  split at hrow
  · rename_i haccepted
    rw [← Option.some.inj hrow]
    exact haccepted.2
  · cases hrow

/-- **Every rating in a table is finite, and a refusal changes nothing.**  Let a table come about
without users or from a list of ratings, and let any replacements follow.

* Then all ratings in the table are finite, its users ascend, and each user has the ratings of the
  last replacement that was accepted, or those that the table came with.
* One more replacement is accepted exactly if its ratings are all finite.  Then the answer is the
  user's row before, if there was one, and nothing but that row is changed.
* Otherwise it is refused, the refusal names the user and the smallest item at fault, and the table
  stays as it was. -/
theorem rows_after_replacements {origin : RatingTable} (h : Origin origin)
    (calls : List Replacement) :
    (∀ user v, (origin.after calls).row? user = some v → v.AllFinite) ∧
    (origin.after calls).users.Pairwise (· < ·) ∧
    (∀ user, (origin.after calls).row? user = (lastRow? calls user).or (origin.row? user)) ∧
    ∀ c : Replacement,
      ((∃ previous, ((origin.after calls).perform c).1 = .ok previous) ↔ c.ratings.AllFinite) ∧
      (c.ratings.AllFinite → ∃ t',
        (origin.after calls).perform c = (.ok ((origin.after calls).row? c.user), t') ∧
        (origin.after calls).RowReplaced t' c.user c.ratings) ∧
      (¬ c.ratings.AllFinite → ∃ item, IsLeast c.ratings.faults item ∧
        (origin.after calls).perform c =
          (.error (.nonFiniteRating c.user item), origin.after calls)) := by
  refine ⟨?_, IdMap.keys_ascending _, row?_after origin calls, fun c => ⟨?_, ?_, ?_⟩⟩
  · intro user v hrow
    rw [row?_after, Option.or_eq_some_iff] at hrow
    rcases hrow with hlast | ⟨-, horigin⟩
    · exact allFinite_of_lastRow? hlast
    · exact h.allFinite horigin
  · refine ⟨fun haccepted => ?_, fun hfinite => ?_⟩
    · obtain ⟨previous, hprevious⟩ := haccepted
      by_contra hfault
      obtain ⟨item, hleast⟩ := RatingVector.exists_isLeast_faults hfault
      rw [perform_of_isLeast _ hleast] at hprevious
      cases hprevious
    · obtain ⟨t', hperform, -⟩ := (origin.after calls).perform_of_allFinite hfinite
      exact ⟨_, congrArg Prod.fst hperform⟩
  · exact fun hfinite => perform_of_allFinite _ hfinite
  · intro hfault
    obtain ⟨item, hleast⟩ := RatingVector.exists_isLeast_faults hfault
    exact ⟨item, hleast, perform_of_isLeast _ hleast⟩

end RatingTable

/-- Users 2 and 3, with ratings for items 10 and 11. -/
def twoRaters : RatingTable :=
  ⟨.ofList [(2, .ofPairs [(10, 5.0), (11, 3.0)]), (3, .ofPairs [(10, 1.0)])], by
    unfold RatingVector.AllFinite
    decide +kernel⟩

/-- The first replacement for user 3 is refused and the second accepted.  Of new ratings for user 2
those for items 10 and 11 are at fault, and user 5 is new. -/
theorem rows_after_replacements_of_refused :
    RatingTable.Origin twoRaters ∧
      ∃ t, twoRaters.after [⟨3, .ofPairs [(12, 1.0 / 0.0)]⟩, ⟨3, .ofPairs [(12, 2.0)]⟩] = t ∧
        t.row? 3 = some (.ofPairs [(12, 2.0)]) ∧ t.row? 2 = twoRaters.row? 2 ∧
        t.perform ⟨2, .ofPairs [(9, 1.0), (10, 0.0 / 0.0), (11, 1.0 / 0.0)]⟩ =
          (.error (.nonFiniteRating 2 10), t) ∧
        ∃ t', t.perform ⟨5, .ofPairs [(9, 1.0)]⟩ = (.ok none, t') ∧
          t.RowReplaced t' 5 (.ofPairs [(9, 1.0)]) := by
  have hratings : RatingTable.ofRatings
      [⟨3, 10, 1.0⟩, ⟨2, 10, 4.0⟩, ⟨2, 11, 3.0⟩, ⟨2, 10, 5.0⟩] = .ok twoRaters := by
    decide +kernel
  have horigin : RatingTable.Origin twoRaters := .ofRatings hratings
  obtain ⟨-, -, hrows, hnext⟩ := RatingTable.rows_after_replacements horigin
    [⟨3, .ofPairs [(12, 1.0 / 0.0)]⟩, ⟨3, .ofPairs [(12, 2.0)]⟩]
  obtain ⟨item, hleast, hrefused⟩ :=
    (hnext ⟨2, .ofPairs [(9, 1.0), (10, 0.0 / 0.0), (11, 1.0 / 0.0)]⟩).2.2 (by decide +kernel)
  have hfirst : RatingVector.firstNonFinite?
      (.ofPairs [(9, 1.0), (10, 0.0 / 0.0), (11, 1.0 / 0.0)]) = some 10 := by decide +kernel
  obtain rfl : item = 10 :=
    hleast.unique (RatingVector.firstNonFinite?_eq_some_iff.mp hfirst)
  obtain ⟨t', haccepted, hreplaced⟩ := (hnext ⟨5, .ofPairs [(9, 1.0)]⟩).2.1 (by decide +kernel)
  have hnew : (RatingTable.lastRow? [⟨3, .ofPairs [(12, 1.0 / 0.0)]⟩,
      ⟨3, .ofPairs [(12, 2.0)]⟩] 5).or (twoRaters.row? 5) = none := by decide +kernel
  rw [hrows, hnew] at haccepted
  refine ⟨horigin, _, rfl, ?_, ?_, hrefused, t', haccepted, hreplaced⟩
  · rw [hrows]
    decide +kernel
  · rw [hrows]
    decide +kernel

end PeerRatings
