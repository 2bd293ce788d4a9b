/-
# Scores stay within the ratings

In exact arithmetic the score of an item does not leave the range of the ratings that it is made
of.  Which range that is depends on the signs of the similarities, since a voter with a negative
similarity counts with the rating turned around.  One argument covers all cases.

A vote with similarity `s` and rating `r` **pulls** with `s * r` and **weighs** `|s|`.  If every
pull lies between `lo` and `hi` times its weight, so does the sum of the pulls between `lo` and
`hi` times the total weight (`Ballot.sums_between`), and the mean lies between `lo` and `hi`
(`Ballot.average_between`).  The bounds of a score are this fact for three choices of `lo` and
`hi`.  A vote with similarity zero fits between any two numbers, which is why its rating does not
count.

Both sums are linear in the similarities, so a positive factor on all of them cancels in the
quotient (`Neighborhoods.score_scaled`).
-/
import Mathlib.Algebra.Order.Field.Rat
import Mathlib.Algebra.Order.Ring.Abs
import Mathlib.Data.Set.Finite.Lemmas
import Mathlib.Tactic.Linarith
import PeerRatings.Proofs.Prediction.ExactMeans

namespace PeerRatings

/-! ## 1. Exact numbers -/

namespace Exact

theorem abs_value (q : Rat) : Arithmetic.abs (value q) = value |q| := by
  change value q.abs = value |q|
  rcases le_total 0 q with h | h
  · rw [Rat.abs_of_nonneg h, abs_of_nonneg h]
  · rw [Rat.abs_of_nonpos h, abs_of_nonpos h]

/-- No number comes out of a sum unless two go in. -/
theorem number_of_add {a b : Exact} {q : Rat} (h : a + b = value q) :
    (∃ p, a = value p) ∧ ∃ r, b = value r := by
  cases a with
  | absent => cases h
  | value p =>
    cases b with
    | absent => cases h
    | value r => exact ⟨⟨p, rfl⟩, ⟨r, rfl⟩⟩

theorem number_of_abs {a : Exact} {q : Rat} (h : Arithmetic.abs a = value q) :
    ∃ p, a = value p := by
  cases a with
  | absent => cases h
  | value p => exact ⟨p, rfl⟩

theorem value_mul_add (c : Rat) (a b : Exact) :
    value c * (a + b) = value c * a + value c * b := by
  cases a with
  | absent => rfl
  | value p =>
    cases b with
    | absent => rfl
    | value q => simp only [value_add, value_mul, mul_add]

theorem value_mul_assoc (c : Rat) (a b : Exact) : value c * a * b = value c * (a * b) := by
  cases a with
  | absent => rfl
  | value p =>
    cases b with
    | absent => rfl
    | value q => simp only [value_mul, mul_assoc]

section PositiveFactor

variable {c : Rat} (hc : 0 < c)
include hc

theorem abs_value_mul (a : Exact) : Arithmetic.abs (value c * a) = value c * Arithmetic.abs a := by
  cases a with
  | absent => rfl
  | value p => rw [value_mul, abs_value, abs_value, value_mul, abs_mul, abs_of_pos hc]

theorem zero_numLt_value_mul (a : Exact) :
    Arithmetic.numLt Arithmetic.zero (value c * a) = Arithmetic.numLt Arithmetic.zero a := by
  cases a with
  | absent => rfl
  | value p =>
    rw [value_mul, Bool.eq_iff_iff, zero_numLt_value_iff, zero_numLt_value_iff,
      mul_pos_iff_of_pos_left hc]

theorem value_mul_div_value_mul (a b : Exact) : value c * a / (value c * b) = a / b := by
  cases b with
  | absent => cases a <;> rfl
  | value q =>
    cases a with
    | absent => rfl
    | value p =>
      rw [value_mul, value_mul]
      by_cases hq : q = 0
      · rw [hq, mul_zero, value_div_zero, value_div_zero]
      · rw [value_div _ (mul_ne_zero hc.ne' hq), value_div _ hq, mul_div_mul_left _ _ hc.ne']

end PositiveFactor

end Exact

/-! ## 2. Pulls and weights -/

namespace Ballot

variable {ballots : List (Ballot Exact)} {lo hi : Rat}

/-- A vote by numbers whose pull lies between `lo` and `hi` times its weight. -/
def PullsBetween (lo hi : Rat) (b : Ballot Exact) : Prop :=
  ∃ s r, b = ⟨.value s, .value r⟩ ∧ lo * |s| ≤ s * r ∧ s * r ≤ hi * |s|

/-- **What holds of every pull holds of the sum of the pulls.** -/
theorem sums_between (h : ∀ b ∈ ballots, b.PullsBetween lo hi) :
    ∃ w sum, totalWeight ballots = .value w ∧ weightedSum ballots = .value sum ∧
      lo * w ≤ sum ∧ sum ≤ hi * w := by
  induction ballots using List.reverseRecOn with
  | nil => exact ⟨0, 0, rfl, rfl, by rw [mul_zero], by rw [mul_zero]⟩
  | append_singleton rest b ih =>
    obtain ⟨w, sum, hweight, hsum, hlo, hhi⟩ := ih fun c hc => h c (List.mem_append_left _ hc)
    obtain ⟨s, r, rfl, hpullLo, hpullHi⟩ := h b (by simp)
    refine ⟨w + |s|, sum + s * r, ?_, ?_, by linarith, by linarith⟩
    · rw [totalWeight, List.foldl_concat, ← totalWeight, hweight, Exact.abs_value, Exact.value_add]
    · rw [weightedSum, List.foldl_concat, ← weightedSum, hsum, Exact.value_mul, Exact.value_add]

/-- **The mean lies where the pulls lie.** -/
theorem average_between
    (hpos : Arithmetic.numLt Arithmetic.zero (totalWeight ballots) = true)
    (h : ∀ b ∈ ballots, b.PullsBetween lo hi) :
    ∃ v, average ballots = .value v ∧ lo ≤ v ∧ v ≤ hi := by
  obtain ⟨w, sum, hweight, hsum, hlo, hhi⟩ := sums_between h
  have hw : 0 < w := Exact.zero_numLt_value_iff.mp (hweight ▸ hpos)
  refine ⟨sum / w, ?_, (le_div_iff₀ hw).mpr hlo, (div_le_iff₀ hw).mpr hhi⟩
  rw [average, if_pos hpos, hweight, hsum, Exact.value_div _ hw.ne']

/-- A weight that is a number was made of similarities that are numbers. -/
theorem number_of_totalWeight {w : Rat} (h : totalWeight ballots = .value w) :
    ∀ b ∈ ballots, ∃ s, b.similarity = .value s := by
  induction ballots using List.reverseRecOn generalizing w with
  | nil => nofun
  | append_singleton rest b ih =>
    rw [totalWeight, List.foldl_concat, ← totalWeight] at h
    obtain ⟨⟨w₀, hrest⟩, ⟨a, habs⟩⟩ := Exact.number_of_add h
    intro c hc
    rcases List.mem_append.mp hc with hc | hc
    · exact ih hrest c hc
    · rw [List.mem_singleton.mp hc]
      exact Exact.number_of_abs habs

/-- The vote of a voter who is `c` times as similar. -/
def scaled (c : Rat) (b : Ballot Exact) : Ballot Exact := ⟨.value c * b.similarity, b.rating⟩

theorem foldl_value_mul (c : Rat) (summand : Ballot Exact → Exact) (ballots : List (Ballot Exact)) :
    ballots.foldl (fun sum b => sum + .value c * summand b) Arithmetic.zero =
      .value c * ballots.foldl (fun sum b => sum + summand b) Arithmetic.zero := by
  have hzero : Exact.value c * Arithmetic.zero = Arithmetic.zero :=
    congrArg Exact.value (mul_zero c)
  conv_lhs => rw [← hzero]
  exact List.foldl_hom (Exact.value c * ·) fun sum b => (Exact.value_mul_add c sum _).symm

/-- **A positive factor on all similarities cancels.** -/
theorem average_scaled {c : Rat} (hc : 0 < c) (ballots : List (Ballot Exact)) :
    average (ballots.map (scaled c)) = average ballots := by
  have hweight : totalWeight (ballots.map (scaled c)) = .value c * totalWeight ballots := by
    rw [totalWeight, List.foldl_map, totalWeight, ← foldl_value_mul]
    simp only [scaled, Exact.abs_value_mul hc]
  have hsum : weightedSum (ballots.map (scaled c)) = .value c * weightedSum ballots := by
    rw [weightedSum, List.foldl_map, weightedSum, ← foldl_value_mul]
    simp only [scaled, Exact.value_mul_assoc]
  rw [average, average, hweight, hsum, Exact.zero_numLt_value_mul hc,
    Exact.value_mul_div_value_mul hc]

end Ballot

/-! ## 3. The voters on an item -/

namespace Neighborhoods

variable {N : Neighborhoods Exact} {item : Int} {p : Rat → Prop}

/-- Somebody with similarity `s` gives the item the rating `r`. -/
def HasVote (N : Neighborhoods Exact) (item : Int) (s r : Rat) : Prop :=
  ∃ n ∈ N.neighbors item, n.similarity = .value s ∧ N.rating n.ratings item = .value r

/-- The ratings that an item has from those whose similarity satisfies `p`. -/
def ratingsWhere (N : Neighborhoods Exact) (item : Int) (p : Rat → Prop) : Set Rat :=
  {r | ∃ s, p s ∧ N.HasVote item s r}

/-- A ballot is the entry of a neighbor who has a rating. -/
theorem exists_of_mem_ballots {b : Ballot Exact} (h : b ∈ N.ballots item) :
    ∃ n ∈ N.neighbors item, ∃ r, N.rating n.ratings item = .value r ∧
      b = ⟨n.similarity, .value r⟩ := by
  obtain ⟨n, hn, hballot⟩ := List.mem_filterMap.mp h
  refine ⟨n, hn, ?_⟩
  cases hr : N.rating n.ratings item with
  | absent =>
    rw [hr] at hballot
    cases hballot
  | value r =>
    rw [hr] at hballot
    exact ⟨r, rfl, (Option.some.inj hballot).symm⟩

theorem finite_ratingsWhere (N : Neighborhoods Exact) (item : Int) (p : Rat → Prop) :
    (N.ratingsWhere item p).Finite := by
  have hvotes : ((fun n => N.rating n.ratings item) '' {n | n ∈ N.neighbors item}).Finite :=
    (List.finite_toSet _).image _
  refine (hvotes.preimage (f := Exact.value) fun _ _ _ _ => Exact.value.inj).subset ?_
  rintro r ⟨s, -, n, hn, -, hr⟩
  exact ⟨n, hn, hr⟩

section Weight

variable (hweight : Arithmetic.numLt Arithmetic.zero (Ballot.totalWeight (N.ballots item)) = true)
include hweight

/-- **A score lies where the pulls of the voters lie**, those with similarity zero apart. -/
theorem score_between (lo hi : Rat)
    (h : ∀ s r, N.HasVote item s r → s ≠ 0 → lo * |s| ≤ s * r ∧ s * r ≤ hi * |s|) :
    ∃ v, N.score item = .value v ∧ lo ≤ v ∧ v ≤ hi := by
  refine Ballot.average_between hweight fun b hb => ?_
  obtain ⟨w, hw, -⟩ := Exact.eq_value_of_pos hweight
  obtain ⟨s, hs⟩ := Ballot.number_of_totalWeight hw b hb
  obtain ⟨n, hn, r, hr, rfl⟩ := exists_of_mem_ballots hb
  have hsim : n.similarity = .value s := hs
  refine ⟨s, r, by rw [hsim], ?_⟩
  by_cases hzero : s = 0
  · simp [hzero]
  · exact h s r ⟨n, hn, hsim, hr⟩ hzero

/-- Somebody has a similarity other than zero.  Else the score would lie between any two bounds,
also where the lower one is above the upper one. -/
theorem exists_hasVote : ∃ s r, N.HasVote item s r ∧ s ≠ 0 := by
  by_contra hnone
  push Not at hnone
  obtain ⟨v, -, hlo, hhi⟩ := score_between hweight 1 0
    fun s r hvote hne => absurd (hnone s r hvote) hne
  linarith

/-- If `p` holds of every similarity other than zero, the ratings under `p` have a least and a
greatest one. -/
theorem exists_least_and_greatest (hcount : ∀ s r, N.HasVote item s r → s ≠ 0 → p s) :
    ∃ lo hi, IsLeast (N.ratingsWhere item p) lo ∧ IsGreatest (N.ratingsWhere item p) hi := by
  obtain ⟨s, r, hvote, hne⟩ := exists_hasVote hweight
  have hsome : (N.ratingsWhere item p).Nonempty := ⟨r, s, hcount s r hvote hne, hvote⟩
  obtain ⟨lo, hlo, hleast⟩ := Set.exists_min_image _ id (N.finite_ratingsWhere item p) hsome
  obtain ⟨hi, hhi, hgreatest⟩ := Set.exists_max_image _ id (N.finite_ratingsWhere item p) hsome
  exact ⟨lo, hi, ⟨hlo, hleast⟩, ⟨hhi, hgreatest⟩⟩

/-- **The score is within the largest magnitude of a rating.** -/
theorem score_within_magnitude : ∃ v, N.score item = .value v ∧
    ∃ M, IsGreatest (abs '' N.ratingsWhere item (· ≠ 0)) M ∧ -M ≤ v ∧ v ≤ M := by
  obtain ⟨s₀, r₀, hvote₀, hne₀⟩ := exists_hasVote hweight
  obtain ⟨r₁, hr₁, hgreatest⟩ := Set.exists_max_image _ abs
    (N.finite_ratingsWhere item (· ≠ 0)) ⟨r₀, s₀, hne₀, hvote₀⟩
  have hM : IsGreatest (abs '' N.ratingsWhere item (· ≠ 0)) |r₁| := by
    refine ⟨Set.mem_image_of_mem _ hr₁, ?_⟩
    rintro _ ⟨r, hr, rfl⟩
    exact hgreatest r hr
  obtain ⟨v, hv, hlo, hhi⟩ := score_between hweight (-|r₁|) |r₁|
    fun s r hvote hne => by
      have hpull : |s * r| ≤ |r₁| * |s| := by
        rw [abs_mul, mul_comm]
        exact mul_le_mul_of_nonneg_right (hgreatest r ⟨s, hne, hvote⟩) (abs_nonneg s)
      rw [neg_mul]
      exact abs_le.mp hpull
  exact ⟨v, hv, |r₁|, hM, hlo, hhi⟩

/-- **Without negative similarities the score is between the ratings that count.** -/
theorem score_of_nonneg (hnone : N.ratingsWhere item (· < 0) = ∅) : ∃ v, N.score item = .value v ∧
    ∃ lo hi, IsLeast (N.ratingsWhere item (0 < ·)) lo ∧
      IsGreatest (N.ratingsWhere item (0 < ·)) hi ∧ lo ≤ v ∧ v ≤ hi := by
  have hpos : ∀ s r, N.HasVote item s r → s ≠ 0 → 0 < s := fun s r hvote hne =>
    lt_of_le_of_ne (not_lt.mp fun hneg => Set.eq_empty_iff_forall_notMem.mp hnone r
      ⟨s, hneg, hvote⟩) hne.symm
  obtain ⟨lo, hi, hleast, hgreatest⟩ := exists_least_and_greatest hweight hpos
  obtain ⟨v, hv, hlo, hhi⟩ := score_between hweight lo hi
    fun s r hvote hne => by
      have hs := hpos s r hvote hne
      rw [abs_of_pos hs, mul_comm s r]
      exact ⟨mul_le_mul_of_nonneg_right (hleast.2 ⟨s, hs, hvote⟩) hs.le,
        mul_le_mul_of_nonneg_right (hgreatest.2 ⟨s, hs, hvote⟩) hs.le⟩
  exact ⟨v, hv, lo, hi, hleast, hgreatest, hlo, hhi⟩

/-- **Without positive similarities it is between the same ratings turned around.** -/
theorem score_of_nonpos (hnone : N.ratingsWhere item (0 < ·) = ∅) : ∃ v, N.score item = .value v ∧
    ∃ lo hi, IsLeast (N.ratingsWhere item (· < 0)) lo ∧
      IsGreatest (N.ratingsWhere item (· < 0)) hi ∧ -hi ≤ v ∧ v ≤ -lo := by
  have hneg : ∀ s r, N.HasVote item s r → s ≠ 0 → s < 0 := fun s r hvote hne =>
    lt_of_le_of_ne (not_lt.mp fun hpos => Set.eq_empty_iff_forall_notMem.mp hnone r
      ⟨s, hpos, hvote⟩) hne
  obtain ⟨lo, hi, hleast, hgreatest⟩ := exists_least_and_greatest hweight hneg
  obtain ⟨v, hv, hlo, hhi⟩ := score_between hweight (-hi) (-lo)
    fun s r hvote hne => by
      have hs := hneg s r hvote hne
      rw [abs_of_neg hs, neg_mul_neg, neg_mul_neg, mul_comm s r]
      exact ⟨mul_le_mul_of_nonpos_right (hgreatest.2 ⟨s, hs, hvote⟩) hs.le,
        mul_le_mul_of_nonpos_right (hleast.2 ⟨s, hs, hvote⟩) hs.le⟩
  exact ⟨v, hv, lo, hi, hleast, hgreatest, hlo, hhi⟩

end Weight

/-! ## 4. Scaled similarities -/

/-- The entry of a neighbor who is `c` times as similar. -/
def scaleEntry (c : Rat) (n : Neighbor Exact) : Neighbor Exact :=
  ⟨n.user, .value c * n.similarity, n.ratings⟩

/-- The neighborhoods in which everybody is `c` times as similar. -/
def scaled (c : Rat) (N : Neighborhoods Exact) : Neighborhoods Exact where
  vectors := N.vectors
  byItem := N.byItem.mapEntries fun _ ns => ns.map (scaleEntry c)
  resolves e he n hn := by
    obtain ⟨e', he', rfl⟩ := List.mem_map.mp he
    obtain ⟨n', hn', rfl⟩ := List.mem_map.mp hn
    exact N.resolves e' he' n' hn'
  nonempty e he := by
    obtain ⟨e', he', rfl⟩ := List.mem_map.mp he
    exact fun hnil => N.nonempty e' he' (List.map_eq_nil_iff.mp hnil)

theorem neighbors_scaled (c : Rat) (N : Neighborhoods Exact) (item : Int) :
    (N.scaled c).neighbors item = (N.neighbors item).map (scaleEntry c) := by
  rw [neighbors, scaled, IdMap.get?_mapEntries, neighbors]
  cases N.byItem.get? item <;> rfl

theorem ballots_scaled (c : Rat) (N : Neighborhoods Exact) (item : Int) :
    (N.scaled c).ballots item = (N.ballots item).map (Ballot.scaled c) := by
  rw [ballots, neighbors_scaled, List.filterMap_map, ballots, List.map_filterMap]
  refine List.filterMap_congr fun n _ => ?_
  change (if Arithmetic.isAbsent (N.rating n.ratings item) then none
    else some (⟨.value c * n.similarity, N.rating n.ratings item⟩ : Ballot Exact)) = _
  by_cases h : Arithmetic.isAbsent (N.rating n.ratings item) <;> simp [h, Ballot.scaled]

/-- **Scores do not depend on the scale of the similarities.** -/
theorem score_scaled {c : Rat} (hc : 0 < c) (N : Neighborhoods Exact) (item : Int) :
    (N.scaled c).score item = N.score item := by
  rw [score, ballots_scaled, Ballot.average_scaled hc, score]

/-! ## 5. Where a score lies -/

/-- **A score stays within the ratings.**  Let the voters on an item have a positive total weight.
Then the item has a score, and

* it lies between `-M` and `M`, where `M` is the largest magnitude of a rating by a voter with a
  similarity other than zero;
* if no voter's similarity is negative, it lies between the least and the greatest rating by a voter
  with a positive similarity;
* if no voter's similarity is positive, it lies between the greatest and the least rating by a voter
  with a negative similarity, both negated;
* a positive factor on all similarities leaves it as it is. -/
theorem score_within_ratings (N : Neighborhoods Exact) (item : Int)
    (hweight : Arithmetic.numLt Arithmetic.zero (Ballot.totalWeight (N.ballots item)) = true) :
    ∃ v, N.score item = .value v ∧
      (∃ M, IsGreatest (abs '' N.ratingsWhere item (· ≠ 0)) M ∧ -M ≤ v ∧ v ≤ M) ∧
      (N.ratingsWhere item (· < 0) = ∅ →
        ∃ lo hi, IsLeast (N.ratingsWhere item (0 < ·)) lo ∧
          IsGreatest (N.ratingsWhere item (0 < ·)) hi ∧ lo ≤ v ∧ v ≤ hi) ∧
      (N.ratingsWhere item (0 < ·) = ∅ →
        ∃ lo hi, IsLeast (N.ratingsWhere item (· < 0)) lo ∧
          IsGreatest (N.ratingsWhere item (· < 0)) hi ∧ -hi ≤ v ∧ v ≤ -lo) ∧
      ∀ c, 0 < c → (N.scaled c).score item = N.score item := by
  obtain ⟨v, hv, hmagnitude⟩ := score_within_magnitude hweight
  refine ⟨v, hv, hmagnitude, fun hnone => ?_, fun hnone => ?_, fun c hc => score_scaled hc N item⟩
  · obtain ⟨v', hv', hbounds⟩ := score_of_nonneg hweight hnone
    rwa [Exact.value.inj (hv.symm.trans hv')]
  · obtain ⟨v', hv', hbounds⟩ := score_of_nonpos hweight hnone
    rwa [Exact.value.inj (hv.symm.trans hv')]

/-- Three items, each with two voters and with a third one who has similarity zero: with similarities
of both signs on item 1, positive ones on item 2 and negative ones on item 3. -/
def ofEachSign : Neighborhoods Exact where
  vectors := #[.ofPairs [(1, .value 4), (2, .value 5), (3, .value 5)],
    .ofPairs [(1, .value (-1)), (2, .value 2), (3, .value 2)],
    .ofPairs [(1, .value 9), (2, .value 9), (3, .value 9)]]
  byItem := .ofList [
    (1, [⟨7, .value 1, ⟨0⟩⟩, ⟨8, .value (-1 / 2), ⟨1⟩⟩, ⟨9, .value 0, ⟨2⟩⟩]),
    (2, [⟨7, .value 1, ⟨0⟩⟩, ⟨8, .value (1 / 2), ⟨1⟩⟩, ⟨9, .value 0, ⟨2⟩⟩]),
    (3, [⟨7, .value (-1), ⟨0⟩⟩, ⟨8, .value (-1 / 2), ⟨1⟩⟩, ⟨9, .value 0, ⟨2⟩⟩])]
  resolves := by decide
  nonempty := by decide

/-- On item 1 the rating 9 would be larger than 4, but its voter has similarity zero. -/
theorem score_within_ratings_of_each_sign :
    (∀ item ∈ [1, 2, 3], Arithmetic.numLt Arithmetic.zero
      (Ballot.totalWeight (ofEachSign.ballots item)) = true) ∧
    (ofEachSign.score 1 = .value 3 ∧
      ∃ M, IsGreatest (abs '' ofEachSign.ratingsWhere 1 (· ≠ 0)) M ∧ -M ≤ 3 ∧ 3 ≤ M) ∧
    (ofEachSign.score 2 = .value 4 ∧ ofEachSign.ratingsWhere 2 (· < 0) = ∅ ∧
      ∃ lo hi, IsLeast (ofEachSign.ratingsWhere 2 (0 < ·)) lo ∧
        IsGreatest (ofEachSign.ratingsWhere 2 (0 < ·)) hi ∧ lo ≤ 4 ∧ 4 ≤ hi) ∧
    (ofEachSign.score 3 = .value (-4) ∧ ofEachSign.ratingsWhere 3 (0 < ·) = ∅ ∧
      ∃ lo hi, IsLeast (ofEachSign.ratingsWhere 3 (· < 0)) lo ∧
        IsGreatest (ofEachSign.ratingsWhere 3 (· < 0)) hi ∧ -hi ≤ -4 ∧ -4 ≤ -lo) ∧
    (ofEachSign.scaled (2 / 7)).score 1 = .value 3 := by
  have hweight : ∀ item ∈ [1, 2, 3], Arithmetic.numLt Arithmetic.zero
      (Ballot.totalWeight (ofEachSign.ballots item)) = true := by decide +kernel
  have hscores : ofEachSign.score 1 = .value 3 ∧ ofEachSign.score 2 = .value 4 ∧
      ofEachSign.score 3 = .value (-4) := by decide +kernel
  have hnonneg : ofEachSign.ratingsWhere 2 (· < 0) = ∅ := by
    refine Set.eq_empty_iff_forall_notMem.mpr ?_
    rintro r ⟨s, hs, n, hn, hsim, -⟩
    have hsims : ∀ n ∈ ofEachSign.neighbors 2,
        Arithmetic.numLt n.similarity Arithmetic.zero = false := by decide +kernel
    have hsign := hsims n hn
    rw [hsim] at hsign
    exact of_decide_eq_false hsign hs
  have hnonpos : ofEachSign.ratingsWhere 3 (0 < ·) = ∅ := by
    refine Set.eq_empty_iff_forall_notMem.mpr ?_
    rintro r ⟨s, hs, n, hn, hsim, -⟩
    have hsims : ∀ n ∈ ofEachSign.neighbors 3,
        Arithmetic.numLt Arithmetic.zero n.similarity = false := by decide +kernel
    have hsign := hsims n hn
    rw [hsim] at hsign
    exact of_decide_eq_false hsign hs
  obtain ⟨v₁, hv₁, hmagnitude, -, -, hscale⟩ :=
    score_within_ratings ofEachSign 1 (hweight 1 (by decide))
  obtain ⟨v₂, hv₂, -, hpositive, -⟩ := score_within_ratings ofEachSign 2 (hweight 2 (by decide))
  obtain ⟨v₃, hv₃, -, -, hnegative, -⟩ := score_within_ratings ofEachSign 3 (hweight 3 (by decide))
  obtain rfl := Exact.value.inj (hscores.1.symm.trans hv₁)
  obtain rfl := Exact.value.inj (hscores.2.1.symm.trans hv₂)
  obtain rfl := Exact.value.inj (hscores.2.2.symm.trans hv₃)
  exact ⟨hweight, ⟨hv₁, hmagnitude⟩, ⟨hv₂, hnonneg, hpositive hnonneg⟩,
    ⟨hv₃, hnonpos, hnegative hnonpos⟩, (hscale (2 / 7) (by norm_num)).trans hv₁⟩

end Neighborhoods

end PeerRatings
