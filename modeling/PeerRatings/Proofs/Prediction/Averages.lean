/-
# Averages of finite votes

The mean of votes in double precision, where every similarity and every rating is a number.  Two
sums and a quotient are rounded on the way, and each of them can become too large.

* The total weight only grows (`atLeast_totalWeight`): it is a number, or too large, and it is
  above zero exactly when somebody has a similarity other than zero.
* The average is a number exactly when the weighted sum is one and the quotient is not too large
  (`average_finite_iff`).  A weight that is too large does no harm by itself: it makes the average
  zero.
* Where ratings are bounded by a power of two, the weighted sum stays below the weight times that
  bound, **rounding included**, since rounding commutes with doubling.  So if that product is not
  too large, the average is a number and within the bound (`average_le`).
-/
import Mathlib.Data.List.Induction
import PeerRatings.Proofs.Arithmetic.Sums
import PeerRatings.Vote

namespace PeerRatings.Ballot

open Rounding Unpacked

/-! ## 1. Finite votes -/

/-- A vote whose similarity and rating are numbers. -/
structure Finite (b : Ballot Float) : Prop where
  similarity : ∃ q, reading b.similarity = .number q
  rating : ∃ q, reading b.rating = .number q

/-! ## 2. The total weight -/

theorem totalWeight_append (ballots : List (Ballot Float)) (b : Ballot Float) :
    totalWeight (ballots ++ [b]) = totalWeight ballots + b.similarity.abs :=
  List.foldl_append ..

theorem weightedSum_append (ballots : List (Ballot Float)) (b : Ballot Float) :
    weightedSum (ballots ++ [b]) = weightedSum ballots + b.similarity * b.rating :=
  List.foldl_append ..

/-- **Weights only grow**: from zero, and past the magnitude of each similarity. -/
theorem atLeast_totalWeight {ballots : List (Ballot Float)} (h : ∀ b ∈ ballots, b.Finite) :
    AtLeast 0 (totalWeight ballots) ∧
      ∀ b ∈ ballots, ∀ q, reading b.similarity = .number q → AtLeast |q| (totalWeight ballots) := by
  induction ballots using List.reverseRecOn with
  | nil => exact ⟨.inl ⟨0, reading_zero, le_refl 0⟩, by simp⟩
  | append_singleton rest b ih =>
    obtain ⟨hzero, hpast⟩ := ih fun c hc => h c (List.mem_append_left _ hc)
    obtain ⟨s, hs⟩ := (h b (by simp)).similarity
    have habs := reading_abs hs
    rw [totalWeight_append]
    refine ⟨(hzero.add (le_refl 0) representable_zero habs (abs_nonneg s)).1, ?_⟩
    intro c hc q hq
    rcases List.mem_append.mp hc with hc | hc
    · have hrep : Representable |q| := (representable_of_reading hq).abs
      exact ((hpast c hc q hq).add (abs_nonneg q) hrep habs (abs_nonneg s)).1
    · rw [List.mem_singleton.mp hc] at hq
      obtain rfl := Reading.number.inj (hs.symm.trans hq)
      exact (hzero.add (le_refl 0) representable_zero habs (abs_nonneg s)).2

/-- Similarities that are all zero weigh nothing. -/
theorem reading_totalWeight_of_zero {ballots : List (Ballot Float)}
    (h : ∀ b ∈ ballots, reading b.similarity = .number 0) :
    reading (totalWeight ballots) = .number 0 := by
  induction ballots using List.reverseRecOn with
  | nil => exact reading_zero
  | append_singleton rest b ih =>
    have hrest := ih fun c hc => h c (List.mem_append_left _ hc)
    have hsum := reading_add hrest (reading_abs (h b (by simp)))
    rw [abs_zero, add_zero] at hsum
    rw [totalWeight_append, hsum, nearest_of_lt (by simpa using limit_pos), rounded_zero]

/-- **The weight is above zero exactly when some similarity is not zero.** -/
theorem totalWeight_pos_iff {ballots : List (Ballot Float)} (h : ∀ b ∈ ballots, b.Finite) :
    Arithmetic.numLt Arithmetic.zero (totalWeight ballots) = true ↔
      ∃ b ∈ ballots, reading b.similarity ≠ .number 0 := by
  rw [zero_numLt_iff]
  constructor
  · intro hpos
    by_contra hnone
    push Not at hnone
    rw [reading_totalWeight_of_zero hnone] at hpos
    rcases hpos with ⟨q, hq, hqpos⟩ | hinf
    · rw [← Reading.number.inj hq] at hqpos
      exact lt_irrefl _ hqpos
    · cases hinf
  · rintro ⟨b, hb, hne⟩
    obtain ⟨s, hs⟩ := (h b hb).similarity
    have hspos : 0 < |s| := abs_pos.mpr fun hzero => hne (hzero ▸ hs)
    rcases (atLeast_totalWeight h).2 b hb s hs with ⟨w, hw, hle⟩ | hinf
    · exact .inl ⟨w, hw, by linarith⟩
    · exact .inr hinf

/-! ## 3. When the average is a number -/

/-- Neither the weighted sum is too large, nor the quotient by the weight. -/
def Fits (ballots : List (Ballot Float)) : Prop :=
  ∃ sum, reading (weightedSum ballots) = .number sum ∧
    ∀ weight, reading (totalWeight ballots) = .number weight → |rounded (sum / weight)| < limit

theorem average_of_zero {ballots : List (Ballot Float)} (h : ∀ b ∈ ballots, b.Finite)
    (hzero : ∀ b ∈ ballots, reading b.similarity = .number 0) :
    average ballots = Arithmetic.absent := by
  refine if_neg fun hpos => ?_
  obtain ⟨b, hb, hne⟩ := (totalWeight_pos_iff h).mp hpos
  exact hne (hzero b hb)

/-- **The average is a number exactly when nothing that it needs is too large.** -/
theorem average_finite_iff {ballots : List (Ballot Float)} (h : ∀ b ∈ ballots, b.Finite)
    (hsome : ∃ b ∈ ballots, reading b.similarity ≠ .number 0) :
    Arithmetic.isFinite (average ballots) = true ↔ Fits ballots := by
  have hpos := (totalWeight_pos_iff h).mpr hsome
  have haverage : average ballots = weightedSum ballots / totalWeight ballots := if_pos hpos
  rw [haverage, isFinite_iff]
  exact exists_reading_div_iff hpos

/-! ## 4. Bounded ratings -/

theorem totalWeight_nonneg {ballots : List (Ballot Float)} {w : ℚ} (h : ∀ b ∈ ballots, b.Finite)
    (hw : reading (totalWeight ballots) = .number w) : 0 ≤ w :=
  (atLeast_totalWeight h).1.le hw

/-- **The weighted sum stays below the weight times a bound of the ratings**, if the bound is a
power of two and this product is not too large. -/
theorem weightedSum_le {ballots : List (Ballot Float)} {k : ℕ} {w : ℚ}
    (h : ∀ b ∈ ballots, b.Finite)
    (hratings : ∀ b ∈ ballots, ∀ q, reading b.rating = .number q → |q| ≤ 2 ^ k)
    (hw : reading (totalWeight ballots) = .number w) (hlimit : 2 ^ k * w < limit) :
    ∃ sum, reading (weightedSum ballots) = .number sum ∧ |sum| ≤ 2 ^ k * w := by
  induction ballots using List.reverseRecOn generalizing w with
  | nil =>
    obtain rfl := Reading.number.inj (reading_zero.symm.trans hw)
    exact ⟨0, reading_zero, by simp⟩
  | append_singleton rest b ih =>
    obtain ⟨s, hs⟩ := (h b (by simp)).similarity
    obtain ⟨r, hr⟩ := (h b (by simp)).rating
    have hrest : ∀ c ∈ rest, c.Finite := fun c hc => h c (List.mem_append_left _ hc)
    rw [totalWeight_append] at hw
    obtain ⟨⟨w₀, hw₀⟩, -⟩ := number_of_reading_add hw
    rw [reading_add hw₀ (reading_abs hs)] at hw
    obtain ⟨-, rfl⟩ := nearest_eq_number_iff.mp hw
    -- the weight with this vote bounds the weight without it, and the similarity
    have hw₀rep := representable_of_reading hw₀
    have hsrep := representable_of_reading hs
    have hgrow : w₀ ≤ rounded (w₀ + |s|) :=
      hw₀rep.le_rounded (le_add_of_nonneg_right (abs_nonneg s))
    have hpast : |s| ≤ rounded (w₀ + |s|) :=
      hsrep.abs.le_rounded (le_add_of_nonneg_left (totalWeight_nonneg hrest hw₀))
    have hk : (0 : ℚ) ≤ 2 ^ k := by positivity
    obtain ⟨sum₀, hsum₀, hle₀⟩ := ih hrest (fun c hc => hratings c (List.mem_append_left _ hc)) hw₀
      ((mul_le_mul_of_nonneg_left hgrow hk).trans_lt hlimit)
    have hproduct := abs_rounded_mul_le hsrep (hratings b (by simp) r hr)
    have hsum := abs_rounded_add_le hw₀rep.units hsrep.abs.units hle₀ hproduct
    have hread : reading (b.similarity * b.rating) = .number (rounded (s * r)) := by
      rw [reading_mul hs hr]
      exact nearest_of_lt ((hproduct.trans (mul_le_mul_of_nonneg_left hpast hk)).trans_lt hlimit)
    refine ⟨_, ?_, hsum⟩
    rw [weightedSum_append, reading_add hsum₀ hread]
    exact nearest_of_lt (hsum.trans_lt hlimit)

/-- **With bounded ratings the average is a number within the bound.** -/
theorem average_le {ballots : List (Ballot Float)} {k : ℕ} {w : ℚ}
    (h : ∀ b ∈ ballots, b.Finite) (hsome : ∃ b ∈ ballots, reading b.similarity ≠ .number 0)
    (hk : k ≤ 1023) (hratings : ∀ b ∈ ballots, ∀ q, reading b.rating = .number q → |q| ≤ 2 ^ k)
    (hw : reading (totalWeight ballots) = .number w) (hlimit : 2 ^ k * w < limit) :
    ∃ v, reading (average ballots) = .number v ∧ |v| ≤ 2 ^ k := by
  have hpos := (totalWeight_pos_iff h).mpr hsome
  have hwpos : 0 < w := (numLt_iff reading_zero hw).mp hpos
  obtain ⟨sum, hsum, hle⟩ := weightedSum_le h hratings hw hlimit
  rw [average, if_pos hpos]
  exact exists_reading_div_le hk hsum hw hwpos hle

end PeerRatings.Ballot
