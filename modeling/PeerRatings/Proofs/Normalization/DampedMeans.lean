/-
# The damped mean

Mean centering shifts the ratings of a user by their mean, damped toward a global one.  In exact
arithmetic the shift is what it is called, for any number of ratings, for absent entries among them,
and for all settings that are accepted.

With damping `d` and global mean `μ`, the shift of `r₁ … rₙ` is the one number `o` with

    (r₁ - o) + … + (rₙ - o) = d·(o - μ)

(`balance_iff`): what the ratings pull to one side, the damping pulls to the other.  This says at
once what the shifted ratings sum to, and that they sum to zero without damping.  The shift lies
between bounds of everything that pulls (`dampedMean_between`), which is the ratings, and the global
mean if there is damping.
-/
import Mathlib.Algebra.Order.BigOperators.Group.List
import Mathlib.Algebra.Order.Field.Rat
import Mathlib.Data.Set.Finite.Lemmas
import Mathlib.Data.Set.Finite.List
import Mathlib.Tactic.Linarith
import Mathlib.Tactic.Ring
import PeerRatings.Normalization.MeanCentering
import PeerRatings.Proofs.Prediction.ExactMeans

namespace PeerRatings

variable {σ : Type} {d μ : ℚ} {ratings : List ℚ}

/-! ## 1. The damped mean of numbers -/

/-- The mean of ratings, damped by `d` toward `μ`; just `μ` where there is nothing to divide by. -/
def dampedMean (d μ : ℚ) (ratings : List ℚ) : ℚ :=
  if ratings.length + d = 0 then μ else (ratings.sum + d * μ) / (ratings.length + d)

theorem sum_map_sub_const (ratings : List ℚ) (o : ℚ) :
    (ratings.map (· - o)).sum = ratings.sum - ratings.length * o := by
  induction ratings with
  | nil => simp
  | cons r ratings ih =>
    rw [List.map_cons, List.sum_cons, ih, List.sum_cons, List.length_cons]
    push_cast
    ring

/-- **The balance law.**  The ratings shifted by `o` sum to `d` times the distance of `o` from the
global mean for one number `o`, the damped mean. -/
theorem balance_iff (hpos : 0 < ratings.length + d) {o : ℚ} :
    (ratings.map (· - o)).sum = d * (o - μ) ↔ o = dampedMean d μ ratings := by
  rw [dampedMean, if_neg hpos.ne', eq_div_iff hpos.ne', sum_map_sub_const]
  constructor <;> intro h <;> linarith

/-- Without ratings and damping there is nothing to balance, so the law holds in any case. -/
theorem dampedMean_balance (hd : 0 ≤ d) :
    (ratings.map (· - dampedMean d μ ratings)).sum = d * (dampedMean d μ ratings - μ) := by
  cases ratings with
  | nil =>
    rcases hd.eq_or_lt with rfl | hpos
    · rw [List.map_nil, List.sum_nil, zero_mul]
    · exact (balance_iff (by simpa using hpos)).mpr rfl
  | cons r ratings =>
    refine (balance_iff ?_).mpr rfl
    have hlength : (0 : ℚ) < (r :: ratings).length := by
      exact_mod_cast List.length_pos_of_mem List.mem_cons_self
    exact add_pos_of_pos_of_nonneg hlength hd

/-- What a damped mean is made of: the ratings, and the global mean if there is damping. -/
def pooled (d μ : ℚ) (ratings : List ℚ) : Set ℚ := {r | r ∈ ratings ∨ d ≠ 0 ∧ r = μ}

/-- **The damped mean lies between all bounds of what it is made of.** -/
theorem dampedMean_between (hd : 0 ≤ d) (hpos : 0 < ratings.length + d) {lo hi : ℚ}
    (h : ∀ r ∈ pooled d μ ratings, lo ≤ r ∧ r ≤ hi) :
    lo ≤ dampedMean d μ ratings ∧ dampedMean d μ ratings ≤ hi := by
  have hsumLo : ratings.length * lo ≤ ratings.sum := by
    simpa using ratings.card_nsmul_le_sum lo fun r hr => (h r (.inl hr)).1
  have hsumHi : ratings.sum ≤ ratings.length * hi := by
    simpa using ratings.sum_le_card_nsmul hi fun r hr => (h r (.inl hr)).2
  have hdamping : d * lo ≤ d * μ ∧ d * μ ≤ d * hi := by
    rcases eq_or_ne d 0 with rfl | hne
    · simp
    · have hmean := h μ (.inr ⟨hne, rfl⟩)
      exact ⟨mul_le_mul_of_nonneg_left hmean.1 hd, mul_le_mul_of_nonneg_left hmean.2 hd⟩
  rw [dampedMean, if_neg hpos.ne', le_div_iff₀ hpos, div_le_iff₀ hpos]
  constructor <;> linarith

/-- If there is something to divide by, there is a least and a greatest number to be made of. -/
theorem exists_least_and_greatest_pooled (hpos : 0 < ratings.length + d) :
    ∃ lo hi, IsLeast (pooled d μ ratings) lo ∧ IsGreatest (pooled d μ ratings) hi := by
  have hfinite : (pooled d μ ratings).Finite := by
    refine (ratings.finite_toSet.union (Set.finite_singleton μ)).subset ?_
    rintro r (hr | ⟨-, rfl⟩)
    · exact .inl hr
    · exact .inr rfl
  have hsome : (pooled d μ ratings).Nonempty := by
    cases ratings with
    | nil => exact ⟨μ, .inr ⟨by simpa using hpos.ne', rfl⟩⟩
    | cons r ratings => exact ⟨r, .inl List.mem_cons_self⟩
  obtain ⟨lo, hlo, hleast⟩ := Set.exists_min_image _ id hfinite hsome
  obtain ⟨hi, hhi, hgreatest⟩ := Set.exists_max_image _ id hfinite hsome
  exact ⟨lo, hi, ⟨hlo, hleast⟩, ⟨hhi, hgreatest⟩⟩

theorem dampedMean_perm {others : List ℚ} (h : others.Perm ratings) :
    dampedMean d μ others = dampedMean d μ ratings := by
  rw [dampedMean, dampedMean, h.length_eq, h.sum_eq]

/-- **Damping by a natural number adds ratings** of the global mean. -/
theorem dampedMean_natCast {k : ℕ} (hpos : 0 < ratings.length + (k : ℚ)) :
    dampedMean k μ ratings =
      (ratings ++ List.replicate k μ).sum / (ratings ++ List.replicate k μ).length := by
  rw [dampedMean, if_neg hpos.ne', List.sum_append, List.sum_replicate, List.length_append,
    List.length_replicate, nsmul_eq_mul, Nat.cast_add]

/-! ## 2. Ratings that are numbers -/

theorem Exact.exists_values {ratings : List Exact}
    (h : ∀ r ∈ ratings, Arithmetic.isAbsent r = false) : ∃ qs : List ℚ, ratings = qs.map value := by
  induction ratings with
  | nil => exact ⟨[], rfl⟩
  | cons r ratings ih =>
    obtain ⟨q, rfl⟩ := eq_value_of_present (h r List.mem_cons_self)
    obtain ⟨qs, rfl⟩ := ih fun r hr => h r (List.mem_cons_of_mem _ hr)
    exact ⟨q :: qs, rfl⟩

namespace RatingVector

theorem isAbsent_of_mem_known {α : Type} [Arithmetic α] {v : RatingVector α} {r : α}
    (h : r ∈ v.known) : Arithmetic.isAbsent r = false := by
  simpa using (List.mem_filter.mp h).2

/-- The sum of exact ratings is their sum. -/
theorem sum_map_value (qs : List ℚ) : sum (qs.map Exact.value) = .value qs.sum := by
  induction qs using List.reverseRecOn with
  | nil => rfl
  | append_singleton qs q ih =>
    rw [List.map_append, List.map_singleton, sum, List.foldl_concat, ← sum, ih, Exact.value_add,
      List.sum_append, List.sum_singleton]

end RatingVector

/-! ## 3. Shifts by a number -/

namespace Rescaling

variable {v : RatingVector Exact} {o : ℚ} {qs : List ℚ}

theorem forward_shift (o q : ℚ) :
    (shiftScale (.value o) Arithmetic.one).forward (.value q) = Exact.value (q - o) := by
  have hone : (Arithmetic.one : Exact) = .value 1 := rfl
  rw [forward, hone, Exact.value_sub, Exact.value_div _ one_ne_zero, div_one]

/-- A shift by a number takes no rating away, and brings none. -/
theorem isAbsent_forward_shift (o : ℚ) (x : Exact) :
    Arithmetic.isAbsent ((shiftScale (.value o) Arithmetic.one).forward x) =
      Arithmetic.isAbsent x := by
  cases x with
  | absent => rfl
  | value q =>
    rw [forward_shift]
    rfl

/-- The known values of a shifted vector are its known values, shifted. -/
theorem known_apply_shift (hknown : v.known = qs.map .value) :
    RatingVector.known ((shiftScale (.value o) Arithmetic.one).apply v) =
      (qs.map (· - o)).map .value := by
  have hvalues : ((shiftScale (.value o) Arithmetic.one).apply v).values =
      v.values.map (shiftScale (.value o) Arithmetic.one).forward := by
    simp [apply, IdMap.mapEntries, IdMap.values]
  rw [RatingVector.known, hvalues, List.filter_map]
  simp only [Function.comp_def, isAbsent_forward_shift]
  rw [← RatingVector.known, hknown, List.map_map, List.map_map]
  exact List.map_congr_left fun q _ => forward_shift o q

end Rescaling

namespace MeanCentering

/-- **The offset of exact ratings is their damped mean.** -/
theorem offset_map_value {m : MeanCentering Exact} (hd : m.damping = .value d)
    (hμ : m.globalMean = .value μ) (qs : List ℚ) :
    m.offset (qs.map .value) = .value (dampedMean d μ qs) := by
  have hcount : Arithmetic.ofCount (qs.map Exact.value).length + m.damping =
      .value (qs.length + d) := by
    rw [hd, List.length_map]
    rfl
  rw [offset, hcount, dampedMean]
  by_cases hzero : (qs.length + d : ℚ) = 0
  · rw [if_pos (Exact.value_numEq_zero_iff.mpr hzero), if_pos hzero, hμ]
  · rw [if_neg (mt Exact.value_numEq_zero_iff.mp hzero), if_neg hzero, RatingVector.sum_map_value,
      hd, hμ, Exact.value_mul, Exact.value_add, Exact.value_div _ hzero]

/-- Settings by two numbers, the damping not negative, are accepted. -/
theorem exists_build (hd : 0 ≤ d) (μ : ℚ) : ∃ m : MeanCentering Exact,
    Settings.build ⟨some (.value d), some (.value μ)⟩ = .ok m ∧ m.damping = .value d ∧
      m.globalMean = .value μ :=
  let m : MeanCentering Exact := ⟨.value d, .value μ, decide_eq_true hd, rfl, rfl⟩
  ⟨m, m.build_checked, rfl, rfl⟩

/-- **The shift of mean centering is the damped mean.**  Let the damping `d` be at least zero, and
let `qs` be the known ratings of a vector.  The settings are accepted, and the vector is shifted by
a number `o`, which does not depend on the user and on the order of the known ratings.  The known
ratings that are left sum to `d * (o - μ)`, and to zero without damping.

If `qs.length + d` is above zero, `o` is the only number with this balance; it lies between the
least and the greatest of the ratings, the global mean taken in if there is damping; and for a
natural number `d` it is the mean of the ratings and `d` further ratings of `μ`.  If `qs.length + d`
is zero, `o` is `μ`. -/
theorem shift_is_damped_mean (hd : 0 ≤ d) (μ : ℚ) (user : Int) (v : RatingVector Exact) (s : σ) :
    ∃ (m : MeanCentering Exact) (qs : List ℚ) (o : ℚ) (v' : RatingVector Exact),
      Settings.build ⟨some (.value d), some (.value μ)⟩ = .ok m ∧
      v.known = qs.map .value ∧
      (m.normalizer.transformation user v).runFrom s =
        (.ok (.shiftScale (.value o) Arithmetic.one), s) ∧
      (∀ (other : Int) (w : RatingVector Exact) (s' : σ), w.known.Perm v.known →
        (m.normalizer.transformation other w).runFrom s' =
          (.ok (.shiftScale (.value o) Arithmetic.one), s')) ∧
      m.normalizer.normalize user v s = ((.ok (), v'), s) ∧
      v'.known = (qs.map (· - o)).map .value ∧
      RatingVector.sum v'.known = .value (d * (o - μ)) ∧
      (d = 0 → RatingVector.sum v'.known = .value 0) ∧
      (0 < qs.length + d →
        (∀ q, (qs.map (· - q)).sum = d * (q - μ) ↔ q = o) ∧
        (∃ lo hi, IsLeast (pooled d μ qs) lo ∧ IsGreatest (pooled d μ qs) hi ∧ lo ≤ o ∧ o ≤ hi) ∧
        ∀ k : ℕ, d = k →
          o = (qs ++ List.replicate k μ).sum / (qs ++ List.replicate k μ).length) ∧
      (qs.length + d = 0 → o = μ) := by
  obtain ⟨m, hbuild, hdamping, hmean⟩ := exists_build hd μ
  obtain ⟨qs, hknown⟩ := Exact.exists_values fun r (hr : r ∈ v.known) =>
    RatingVector.isAbsent_of_mem_known hr
  have hfit : ∀ ratings : List ℚ, ratings.Perm qs → m.fit (ratings.map .value) =
      .shiftScale (.value (dampedMean d μ qs)) Arithmetic.one := fun ratings h => by
    rw [fit, offset_map_value hdamping hmean, dampedMean_perm h]
  have hshifted := Rescaling.known_apply_shift (o := dampedMean d μ qs) hknown
  have hsum : RatingVector.sum (RatingVector.known
      ((Rescaling.shiftScale (.value (dampedMean d μ qs)) Arithmetic.one).apply v)) =
        .value (d * (dampedMean d μ qs - μ)) := by
    rw [hshifted, RatingVector.sum_map_value, dampedMean_balance hd]
  refine ⟨m, qs, dampedMean d μ qs, _, hbuild, hknown, ?_, ?_, ?_, hshifted, hsum, ?_, ?_, ?_⟩
  · rw [normalizer, Normalizer.transformation_fitted, hknown, hfit qs (.refl qs)]
  · intro other w s' hperm
    obtain ⟨others, hothers⟩ := Exact.exists_values fun r (hr : r ∈ w.known) =>
      RatingVector.isAbsent_of_mem_known hr
    rw [hothers, hknown, List.map_perm_map_iff fun _ _ => Exact.value.inj] at hperm
    rw [normalizer, Normalizer.transformation_fitted, hothers, hfit others hperm]
  · rw [normalizer, Normalizer.normalize_fitted, hknown, hfit qs (.refl qs)]
  · intro hzero
    rw [hsum, hzero, zero_mul]
  · intro hpos
    obtain ⟨lo, hi, hleast, hgreatest⟩ := exists_least_and_greatest_pooled (μ := μ) hpos
    refine ⟨fun q => balance_iff hpos, ⟨lo, hi, hleast, hgreatest, dampedMean_between hd hpos
      fun r hr => ⟨hleast.2 hr, hgreatest.2 hr⟩⟩, ?_⟩
    rintro k rfl
    exact dampedMean_natCast hpos
  · intro hzero
    rw [dampedMean, if_pos hzero]

/-- The ratings 4 and 2, with an absent one between them. -/
def twoRatings : RatingVector Exact := .ofPairs [(10, .value 4), (11, .absent), (12, .value 2)]

/-- Damped by three ratings of `1 / 2`, they are shifted by `3 / 2`. -/
theorem shift_of_two_ratings :
    (0 : ℚ) ≤ 3 ∧
    ∃ (m : MeanCentering Exact) (v' : RatingVector Exact),
      Settings.build ⟨some (.value 3), some (.value (1 / 2))⟩ = .ok m ∧
      (m.normalizer.transformation 7 twoRatings).runFrom () =
        (.ok (.shiftScale (.value (3 / 2)) Arithmetic.one), ()) ∧
      m.normalizer.normalize 7 twoRatings () = ((.ok (), v'), ()) ∧
      v'.known = [.value (5 / 2), .value (1 / 2)] ∧ RatingVector.sum v'.known = .value 3 ∧
      (∃ lo hi, IsLeast (pooled 3 (1 / 2) [4, 2]) lo ∧ IsGreatest (pooled 3 (1 / 2) [4, 2]) hi ∧
        lo ≤ 3 / 2 ∧ 3 / 2 ≤ hi) ∧
      (3 / 2 : ℚ) = ([4, 2] ++ List.replicate 3 (1 / 2) : List ℚ).sum /
        ([4, 2] ++ List.replicate 3 (1 / 2) : List ℚ).length := by
  have hd : (0 : ℚ) ≤ 3 := by norm_num
  obtain ⟨m, qs, o, v', hbuild, hknown, hshift, -, hnormalize, hleft, hsum, -, hpos, -⟩ :=
    shift_is_damped_mean hd (1 / 2) 7 twoRatings ()
  have hratings : twoRatings.known = [4, 2].map Exact.value := by decide +kernel
  obtain rfl : [4, 2] = qs :=
    List.map_injective_iff.mpr (fun _ _ => Exact.value.inj) (hratings.symm.trans hknown)
  obtain ⟨hbalance, hbounds, hextra⟩ := hpos (by norm_num)
  obtain rfl : 3 / 2 = o := (hbalance (3 / 2)).mp (by norm_num)
  refine ⟨hd, m, v', hbuild, hshift, hnormalize, ?_, ?_, hbounds, hextra 3 (by norm_num)⟩
  · rw [hleft]
    norm_num
  · rw [hsum]
    norm_num

end MeanCentering

end PeerRatings
