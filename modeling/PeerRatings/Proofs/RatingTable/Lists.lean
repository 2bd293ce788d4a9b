/-
# The table of a list of ratings

A table is built from a list of ratings by sorting them out by user and making a row of each group.
What comes out is said here by the list alone, without the order in which users and items happen to
be interleaved:

* the list is refused exactly if a rating on it is not finite, and the refusal names the **first**
  such rating, even if a later one would have taken its place (`ofRatings_of_first_fault`);
* otherwise the table has the users of the list, and at every place, that is for a user and an item,
  the rating that the list gives there **last** (`exists_tableOf`).

Two orders have to be kept for the last rating to count, that of a list within a group and that of a
group within a row.  The first is what sorting out keeps, and the second is left to the vector of a
list of pairs: it may be made by a sort and a merge, if the sort is stable.

A table is determined by its users and its ratings (`ext_rating?`).  So whatever leaves the last
rating at every place alone leaves the table alone: a list may be reordered as long as the ratings
at one place keep their order, and a table that is listed and built again, in any order, is the same
table.  The latter needs that no user has an empty row, since a list has no way to name such a user;
a table that was built from a list has none.
-/
import PeerRatings.Proofs.RatingTable.Replacements

namespace PeerRatings.RatingTable

variable {t t' : RatingTable} {ratings : List RatingTable.Rating} {user item : Int}

/-! ## 1. What a list says last -/

/-- Whether a rating is one of this item by this user. -/
def Rating.isAt (user item : Int) (r : Rating) : Bool := r.user == user && r.item == item

@[simp] theorem Rating.isAt_iff {r : Rating} :
    r.isAt user item = true ↔ r.user = user ∧ r.item = item := by
  simp [isAt]

/-- The rating that a list gives last for an item by a user. -/
def lastAt? (ratings : List Rating) (user item : Int) : Option Float :=
  (ratings.filter (Rating.isAt user item)).getLast?.map Rating.value

/-- What a list gives last is what the group of the user has last. -/
theorem lastOf?_groupOf : IdMap.lastOf? item (groupOf ratings user) = lastAt? ratings user item := by
  have hplace : (fun r : Rating => r.item == item && r.user == user) = Rating.isAt user item :=
    funext fun r => Bool.and_comm ..
  rw [IdMap.lastOf?, groupOf, List.filter_map, List.filter_filter, List.getLast?_map,
    Option.map_map, lastAt?, ← hplace]
  rfl

/-- What is given last is given. -/
theorem mem_of_lastAt? {x : Float} (h : lastAt? ratings user item = some x) :
    ⟨user, item, x⟩ ∈ ratings := by
  obtain ⟨r, hlast, rfl⟩ := Option.map_eq_some_iff.mp h
  obtain ⟨hmem, hplace⟩ := List.mem_filter.mp (List.mem_of_getLast? hlast)
  obtain ⟨rfl, rfl⟩ := Rating.isAt_iff.mp hplace
  exact hmem

/-- Something is given last where anything is given. -/
theorem isSome_lastAt?_iff :
    (lastAt? ratings user item).isSome ↔ ∃ r ∈ ratings, r.user = user ∧ r.item = item := by
  rw [lastAt?, Option.isSome_map, Option.isSome_iff_ne_none, Ne, List.getLast?_eq_none_iff,
    List.filter_eq_nil_iff]
  simp

/-! ## 2. What determines a table -/

/-- The rating of an item by a user, if there is one. -/
def rating? (t : RatingTable) (user item : Int) : Option Float :=
  (t.row? user).bind fun row => row.get? item

theorem rating?_of_row? {v : RatingVector Float} (h : t.row? user = some v) (item : Int) :
    t.rating? user item = v.get? item := by
  rw [rating?, h, Option.bind_some]

/-- **A table is its users and its ratings.** -/
theorem ext_rating? (husers : ∀ user, user ∈ t.users ↔ user ∈ t'.users)
    (hratings : ∀ user item, t.rating? user item = t'.rating? user item) : t = t' := by
  have hrows : t.rows = t'.rows := by
    refine IdMap.ext_get? fun user => ?_
    have hsome := husers user
    rw [mem_users_iff, mem_users_iff] at hsome
    change t.row? user = t'.row? user
    cases hrow : t.row? user with
    | none =>
      cases hrow' : t'.row? user with
      | none => rfl
      | some w => simp [hrow, hrow'] at hsome
    | some v =>
      cases hrow' : t'.row? user with
      | none => simp [hrow, hrow'] at hsome
      | some w =>
        refine congrArg some (IdMap.ext_get? fun item => ?_)
        rw [← rating?_of_row? hrow, ← rating?_of_row? hrow', hratings]
  cases t
  cases t'
  cases hrows
  rfl

/-- What the table of a list is. -/
structure TableOf (ratings : List Rating) (t : RatingTable) : Prop where
  rating? : ∀ user item, t.rating? user item = lastAt? ratings user item
  mem_users_iff : ∀ user, user ∈ t.users ↔ ∃ r ∈ ratings, r.user = user

theorem exists_tableOf (h : ∀ r ∈ ratings, Arithmetic.isFinite r.value = true) :
    ∃ t, ofRatings ratings = .ok t ∧ TableOf ratings t := by
  obtain ⟨t, hbuilt, hrow⟩ := exists_ofRatings h
  refine ⟨t, hbuilt, ⟨fun user item => ?_, fun user => ?_⟩⟩
  · rw [rating?, hrow, ← lastOf?_groupOf]
    split
    · rename_i hnone
      rw [hnone]
      rfl
    · exact IdMap.get?_ofList _ item
  · rw [RatingTable.mem_users_iff, hrow, ← groupOf_ne_nil_iff]
    split <;> simp_all

theorem tableOf_of_ofRatings (h : ofRatings ratings = .ok t) : TableOf ratings t := by
  obtain ⟨t₁, hbuilt, htable⟩ := exists_tableOf (ofRatings_ok_iff.mp ⟨t, h⟩)
  rwa [Except.ok.inj (h.symm.trans hbuilt)]

/-- The table is the only one. -/
theorem TableOf.ofRatings_eq (h : TableOf ratings t)
    (hfinite : ∀ r ∈ ratings, Arithmetic.isFinite r.value = true) : ofRatings ratings = .ok t := by
  obtain ⟨t', hbuilt, htable⟩ := exists_tableOf hfinite
  rw [hbuilt]
  refine congrArg Except.ok (ext_rating? (fun user => ?_) fun user item => ?_)
  · rw [htable.mem_users_iff, h.mem_users_iff]
  · rw [htable.rating?, h.rating?]

/-! ## 3. Reordering a list -/

/-- One list is the other in another order, where the ratings at one place keep theirs. -/
def Rearranged (a b : List Rating) : Prop :=
  ∀ user item, a.filter (Rating.isAt user item) = b.filter (Rating.isAt user item)

theorem Rearranged.mem_iff {a b : List Rating} (h : Rearranged a b) {r : Rating} :
    r ∈ a ↔ r ∈ b := by
  have hself : r.isAt r.user r.item = true := Rating.isAt_iff.mpr ⟨rfl, rfl⟩
  have hplace : ∀ l : List Rating, r ∈ l ↔ r ∈ l.filter (Rating.isAt r.user r.item) := fun l => by
    rw [List.mem_filter, and_iff_left hself]
  rw [hplace a, hplace b, h]

theorem TableOf.of_rearranged {a b : List Rating} (ht : TableOf a t) (h : Rearranged a b) :
    TableOf b t where
  rating? := fun user item => by rw [ht.rating?, lastAt?, lastAt?, h]
  mem_users_iff := fun user => by simp only [ht.mem_users_iff, h.mem_iff]

/-! ## 4. Listing a table -/

/-- The ratings of a table, user by user and item by item. -/
def listing (t : RatingTable) : List Rating :=
  t.rows.entries.flatMap fun row => row.2.entries.map fun e => ⟨row.1, e.1, e.2⟩

/-- What is listed is what can be read. -/
theorem mem_listing_iff {r : Rating} :
    r ∈ t.listing ↔ t.rating? r.user r.item = some r.value := by
  simp only [listing, List.mem_flatMap, List.mem_map]
  constructor
  · rintro ⟨row, hrow, e, he, rfl⟩
    have hrow' : t.row? row.1 = some row.2 := IdMap.get?_eq_some_iff.mpr hrow
    rw [rating?_of_row? hrow']
    exact IdMap.get?_eq_some_iff.mpr he
  · intro h
    cases hrow : t.row? r.user with
    | none => simp [RatingTable.rating?, hrow] at h
    | some v =>
      rw [rating?_of_row? hrow] at h
      exact ⟨(r.user, v), IdMap.get?_eq_some_iff.mp hrow, (r.item, r.value),
        IdMap.get?_eq_some_iff.mp h, rfl⟩

/-- **A table is the table of its ratings, listed in any order**, if no row is empty. -/
theorem TableOf.of_listed {listed : List Rating} (hlisted : ∀ r, r ∈ listed ↔ r ∈ t.listing)
    (hrows : ∀ user ∈ t.users, ∃ item, (t.rating? user item).isSome) : TableOf listed t where
  rating? := fun user item => by
    refine Option.ext fun x => ?_
    constructor
    · intro hx
      have hgiven : (⟨user, item, x⟩ : Rating) ∈ listed := (hlisted _).mpr (mem_listing_iff.mpr hx)
      obtain ⟨y, hy⟩ := Option.isSome_iff_exists.mp
        (isSome_lastAt?_iff.mpr ⟨_, hgiven, rfl, rfl⟩)
      -- whatever is listed at this place is what can be read there
      have hread := mem_listing_iff.mp ((hlisted _).mp (mem_of_lastAt? hy))
      rw [hy, ← hread, hx]
    · intro hx
      exact mem_listing_iff.mp ((hlisted _).mp (mem_of_lastAt? hx))
  mem_users_iff := fun user => by
    constructor
    · intro huser
      obtain ⟨item, hsome⟩ := hrows user huser
      obtain ⟨x, hx⟩ := Option.isSome_iff_exists.mp hsome
      exact ⟨⟨user, item, x⟩, (hlisted _).mpr (mem_listing_iff.mpr hx), rfl⟩
    · rintro ⟨r, hr, rfl⟩
      have hread := mem_listing_iff.mp ((hlisted r).mp hr)
      rw [RatingTable.mem_users_iff]
      cases hrow : t.row? r.user with
      | none => simp [RatingTable.rating?, hrow] at hread
      | some v => rfl

/-- The table of a list has no empty row. -/
theorem TableOf.exists_rating (h : TableOf ratings t) (huser : user ∈ t.users) :
    ∃ item, (t.rating? user item).isSome := by
  obtain ⟨r, hr, rfl⟩ := (h.mem_users_iff user).mp huser
  refine ⟨r.item, ?_⟩
  rw [h.rating?, isSome_lastAt?_iff]
  exact ⟨r, hr, rfl, rfl⟩

/-- A listed rating is finite. -/
theorem isFinite_of_mem_listing {r : Rating} (h : r ∈ t.listing) :
    Arithmetic.isFinite r.value = true := by
  obtain ⟨row, hrow, hr⟩ := List.mem_flatMap.mp h
  obtain ⟨e, he, rfl⟩ := List.mem_map.mp hr
  exact t.finite row hrow e he

/-- **Of a list of ratings the last one counts at every place.**

* The list is accepted exactly if all of its ratings are finite.  Otherwise the refusal names the
  user and the item of the first one that is not.
* The users of the table are those on the list, ascending.  A user's row has the items that the list
  has with the user, ascending, each with the rating that the list gives it last.  Its columns are
  what comes out of sorting the user's own ratings stably by item and merging runs of one item into
  the last of their ratings.
* A list in another order makes the same table, if the ratings at one place keep their order; and so
  does a list of the ratings in the table, in any order. -/
theorem ofRatings_last_counts (ratings : List Rating) :
    ((∃ t, ofRatings ratings = .ok t) ↔
      ∀ r ∈ ratings, Arithmetic.isFinite r.value = true) ∧
    (∀ before r after, ratings = before ++ r :: after →
      (∀ q ∈ before, Arithmetic.isFinite q.value = true) → ¬ Arithmetic.isFinite r.value = true →
      ofRatings ratings = .error (.nonFiniteRating r.user r.item)) ∧
    ∀ t, ofRatings ratings = .ok t →
      t.users.Pairwise (· < ·) ∧ (∀ user, user ∈ t.users ↔ ∃ r ∈ ratings, r.user = user) ∧
      (∀ user row, t.row? user = some row →
        row.keys.Pairwise (· < ·) ∧
        (∀ item, item ∈ row.keys ↔ ∃ r ∈ ratings, r.user = user ∧ r.item = item) ∧
        (∀ item, row.get? item = lastAt? ratings user item) ∧
        RatingVector.mergeRuns (Sorting.sorted RatingVector.keyNotAfter (groupOf ratings user)) =
          (row.keys, row.values)) ∧
      (∀ other, Rearranged ratings other → ofRatings other = .ok t) ∧
      ∀ listed, listed.Perm t.listing → ofRatings listed = .ok t := by
  refine ⟨ofRatings_ok_iff, ?_, fun t hbuilt => ?_⟩
  · rintro before r after rfl hbefore hr
    exact ofRatings_of_first_fault hbefore hr
  · have htable := tableOf_of_ofRatings hbuilt
    refine ⟨IdMap.keys_ascending _, htable.mem_users_iff, fun user row hrow => ?_, ?_, ?_⟩
    · have hget : ∀ item, row.get? item = lastAt? ratings user item := fun item => by
        rw [← rating?_of_row? hrow, htable.rating?]
      refine ⟨row.keys_ascending, fun item => ?_, hget, ?_⟩
      · rw [IdMap.mem_keys_iff, hget, isSome_lastAt?_iff]
      · rw [RatingVector.mergeRuns_sorted, ofPairs_groupOf hbuilt hrow]
    · intro other hother
      refine (htable.of_rearranged hother).ofRatings_eq fun r hr => ?_
      exact ofRatings_ok_iff.mp ⟨t, hbuilt⟩ r (hother.mem_iff.mpr hr)
    · intro listed hlisted
      refine (TableOf.of_listed (fun _ => hlisted.mem_iff)
        fun _ => htable.exists_rating).ofRatings_eq fun r hr => ?_
      exact isFinite_of_mem_listing (hlisted.mem_iff.mp hr)

/-- User 3 comes between and user 2 rates item 10 twice. -/
def interleaved : List Rating := [⟨2, 10, 4.0⟩, ⟨3, 10, 1.0⟩, ⟨2, 11, 3.0⟩, ⟨2, 10, 5.0⟩]

/-- The list makes the table `twoRaters`, and so do the list with user 3 in front and the ratings in
the table from last to first.  With an infinite rating behind it the list is refused, though the
next rating would take the place of that one. -/
theorem ofRatings_last_counts_of_interleaved :
    ofRatings interleaved = .ok twoRaters ∧ lastAt? interleaved 2 10 = some 5.0 ∧
      (∀ row, twoRaters.row? 2 = some row → row.get? 10 = some 5.0) ∧
      Rearranged interleaved [⟨3, 10, 1.0⟩, ⟨2, 10, 4.0⟩, ⟨2, 10, 5.0⟩, ⟨2, 11, 3.0⟩] ∧
      ofRatings [⟨3, 10, 1.0⟩, ⟨2, 10, 4.0⟩, ⟨2, 10, 5.0⟩, ⟨2, 11, 3.0⟩] = .ok twoRaters ∧
      twoRaters.listing.reverse.Perm twoRaters.listing ∧
      ofRatings twoRaters.listing.reverse = .ok twoRaters ∧
      ofRatings (interleaved ++ ⟨3, 12, 1.0 / 0.0⟩ :: [⟨3, 12, 2.0⟩, ⟨4, 12, 0.0 / 0.0⟩]) =
        .error (.nonFiniteRating 3 12) := by
  have hbuilt : ofRatings interleaved = .ok twoRaters := by decide +kernel
  have hlast : lastAt? interleaved 2 10 = some 5.0 := by decide +kernel
  have hrearranged :
      Rearranged interleaved [⟨3, 10, 1.0⟩, ⟨2, 10, 4.0⟩, ⟨2, 10, 5.0⟩, ⟨2, 11, 3.0⟩] := by
    intro user item
    simp only [interleaved, List.filter_cons, List.filter_nil, Rating.isAt_iff]
    split_ifs <;> first | rfl | omega
  obtain ⟨-, -, htable⟩ := ofRatings_last_counts interleaved
  obtain ⟨-, -, hrows, hreordered, hlisted⟩ := htable _ hbuilt
  obtain ⟨-, hrefused, -⟩ := ofRatings_last_counts
    (interleaved ++ ⟨3, 12, 1.0 / 0.0⟩ :: [⟨3, 12, 2.0⟩, ⟨4, 12, 0.0 / 0.0⟩])
  refine ⟨hbuilt, hlast, fun row hrow => ?_, hrearranged, hreordered _ hrearranged,
    List.reverse_perm _, hlisted _ (List.reverse_perm _), ?_⟩
  · exact ((hrows 2 row hrow).2.2.1 10).trans hlast
  · exact hrefused interleaved _ _ rfl (by decide +kernel) (by decide +kernel)

end PeerRatings.RatingTable
