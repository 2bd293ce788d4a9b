/-
# When the transformations of finite ratings are finite

Settings are checked to be finite, ratings are checked to be finite, and a spread of nothing is
replaced by one.  None of this keeps a sum, a product or a square from becoming too large.

* A damped mean is a number exactly when its numerator is one and the quotient is not too large
  (`isFinite_offset_iff`).  A denominator that is too large does no harm by itself.
* A mean and its deviation are numbers exactly when the sum of the ratings and the sum of the
  squares are (`isFinite_scale_iff`).
* **Ratings and global mean up to `2 ^ k` are centered by a number up to `2 ^ k`** unless `2 ^ k`
  times the denominator is too large (`exists_offset_le`), and their deviation is at most
  `2 ^ (k + 1)` as long as `k` is at most 484 (`exists_scale_le`).

The scale is above zero in any case: one, or a deviation that counts as spread.
-/
import PeerRatings.Normalization.Method
import PeerRatings.Proofs.Normalization.Spread

namespace PeerRatings

open Rounding Unpacked

/-! ## 1. The damped mean -/

namespace MeanCentering

variable {ratings : List Float} {k : ℕ} {D : ℚ} (m : MeanCentering Float)

/-- The checked damping is a number that is not negative. -/
theorem exists_reading_damping : ∃ d, reading m.damping = .number d ∧ 0 ≤ d := by
  obtain ⟨d, hd⟩ := isFinite_iff.mp m.damping_finite
  exact ⟨d, hd, (numLe_iff reading_zero hd).mp m.damping_nonneg⟩

/-- With ratings the denominator is at least one, or too large. -/
theorem atLeast_denominator (hne : ratings ≠ []) :
    AtLeast 1 (Arithmetic.ofCount ratings.length + m.damping) := by
  obtain ⟨d, hd, hd0⟩ := m.exists_reading_damping
  have hcount : AtLeast 1 (Arithmetic.ofCount ratings.length) := by
    refine nearest_atLeast (reading_ofCount _) (representable_of_reading reading_one) ?_
      (Nat.cast_nonneg _)
    exact_mod_cast List.length_pos_iff.mpr hne
  exact (hcount.add zero_le_one (representable_of_reading reading_one) hd hd0).1

/-- Without ratings the denominator is the damping. -/
theorem reading_denominator_nil :
    reading (Arithmetic.ofCount ([] : List Float).length + m.damping) = reading m.damping := by
  obtain ⟨d, hd, -⟩ := m.exists_reading_damping
  have hcount : reading (Arithmetic.ofCount ([] : List Float).length) = .number 0 :=
    reading_ofCount_of_le (by norm_num)
  rw [reading_add hcount hd, zero_add, hd,
    nearest_of_representable (representable_of_reading hd) (abs_lt_limit_of_reading hd)]

/-- There is nothing to divide by exactly without ratings and damping. -/
theorem denominator_numEq_zero_iff :
    Arithmetic.numEq (Arithmetic.ofCount ratings.length + m.damping) Arithmetic.zero = true ↔
      ratings = [] ∧ reading m.damping = .number 0 := by
  rw [numEq_number_iff reading_zero]
  by_cases hne : ratings = []
  · subst hne
    rw [m.reading_denominator_nil]
    simp
  · refine iff_of_false (fun hzero => ?_) fun h => hne h.1
    have hle : (1 : ℚ) ≤ 0 := (m.atLeast_denominator hne).le hzero
    exact absurd hle (by norm_num)

/-- A denominator that is not zero is above zero. -/
theorem denominator_pos (hne : ¬(ratings = [] ∧ reading m.damping = .number 0)) :
    Arithmetic.numLt Arithmetic.zero (Arithmetic.ofCount ratings.length + m.damping) = true := by
  rw [zero_numLt_iff]
  by_cases hnil : ratings = []
  · subst hnil
    obtain ⟨d, hd, hd0⟩ := m.exists_reading_damping
    have hdne : d ≠ 0 := by
      rintro rfl
      exact hne ⟨rfl, hd⟩
    exact .inl ⟨d, by rw [m.reading_denominator_nil, hd], hd0.lt_of_ne' hdne⟩
  · rcases m.atLeast_denominator hnil with ⟨D, hD, hle⟩ | hinf
    · exact .inl ⟨D, hD, one_pos.trans_le hle⟩
    · exact .inr hinf

theorem offset_of_zero (h : ratings = [] ∧ reading m.damping = .number 0) :
    m.offset ratings = m.globalMean :=
  if_pos (m.denominator_numEq_zero_iff.mpr h)

theorem offset_of_ne (h : ¬(ratings = [] ∧ reading m.damping = .number 0)) :
    m.offset ratings = (RatingVector.sum ratings + m.damping * m.globalMean) /
      (Arithmetic.ofCount ratings.length + m.damping) :=
  if_neg fun hzero => h (m.denominator_numEq_zero_iff.mp hzero)

/-- Neither the numerator of the damped mean is too large, nor the quotient. -/
def Fits (ratings : List Float) : Prop :=
  ∃ N, reading (RatingVector.sum ratings + m.damping * m.globalMean) = .number N ∧
    ∀ D, reading (Arithmetic.ofCount ratings.length + m.damping) = .number D →
      |rounded (N / D)| < limit

/-- **The offset is a number exactly when nothing that it needs is too large**, or there is nothing
to divide by. -/
theorem isFinite_offset_iff : Arithmetic.isFinite (m.offset ratings) = true ↔
    (ratings = [] ∧ reading m.damping = .number 0) ∨ m.Fits ratings := by
  by_cases hzero : ratings = [] ∧ reading m.damping = .number 0
  · rw [m.offset_of_zero hzero]
    exact iff_of_true m.globalMean_finite (.inl hzero)
  · rw [m.offset_of_ne hzero, isFinite_iff, or_iff_right hzero]
    exact exists_reading_div_iff (m.denominator_pos hzero)

/-- The numerator stays below the denominator times a bound of the ratings and of the global mean,
if that is not too large. -/
theorem exists_numerator_le {c d μ : ℚ}
    (hc : reading (Arithmetic.ofCount ratings.length) = .number c)
    (hd : reading m.damping = .number d) (hμ : reading m.globalMean = .number μ) (hd0 : 0 ≤ d)
    (hratings : ∀ x ∈ ratings, ∃ q, reading x = .number q ∧ |q| ≤ 2 ^ k) (hmean : |μ| ≤ 2 ^ k)
    (hlimit : 2 ^ k * rounded (c + d) < limit) :
    ∃ N, reading (RatingVector.sum ratings + m.damping * m.globalMean) = .number N ∧
      |N| ≤ 2 ^ k * rounded (c + d) := by
  have hcrep := representable_of_reading hc
  have hdrep := representable_of_reading hd
  have hk : (0 : ℚ) ≤ 2 ^ k := by positivity
  have hmin : ((min ratings.length (2 ^ 53) : ℕ) : ℚ) ≤ c := (atLeast_ofCount _).le hc
  have hc0 : 0 ≤ c := (Nat.cast_nonneg _).trans hmin
  -- the denominator bounds the count and the damping
  have hcle : c ≤ rounded (c + d) := hcrep.le_rounded (le_add_of_nonneg_right hd0)
  have hdle : d ≤ rounded (c + d) := hdrep.le_rounded (le_add_of_nonneg_left hc0)
  have hcount : ((min ratings.length (2 ^ 53) : ℕ) : ℚ) * 2 ^ (k : ℤ) ≤ 2 ^ k * c := by
    rw [zpow_natCast, mul_comm]
    exact mul_le_mul_of_nonneg_left hmin hk
  obtain ⟨S, hS, hSle⟩ := exists_reading_sum reading_zero (by omega)
    (fun x hx => by simpa only [zpow_natCast] using hratings x hx)
    (hcount.trans_lt ((mul_le_mul_of_nonneg_left hcle hk).trans_lt hlimit))
  have hproduct : |rounded (d * μ)| ≤ 2 ^ k * d := by
    have hle := abs_rounded_mul_le hdrep hmean
    rwa [abs_of_nonneg hd0] at hle
  have hP : reading (m.damping * m.globalMean) = .number (rounded (d * μ)) := by
    rw [reading_mul hd hμ, nearest_of_lt
      ((hproduct.trans (mul_le_mul_of_nonneg_left hdle hk)).trans_lt hlimit)]
  have hsum := abs_rounded_add_le hcrep.units hdrep.units (hSle.trans hcount) hproduct
  refine ⟨_, ?_, hsum⟩
  rw [RatingVector.sum, reading_add hS hP, nearest_of_lt (hsum.trans_lt hlimit)]

/-- **Ratings and global mean up to `2 ^ k` are centered by a number up to `2 ^ k`**, if `2 ^ k`
times the denominator is not too large. -/
theorem exists_offset_le (hk : k ≤ 1023)
    (hratings : ∀ x ∈ ratings, ∃ q, reading x = .number q ∧ |q| ≤ 2 ^ k)
    (hmean : ∀ μ, reading m.globalMean = .number μ → |μ| ≤ 2 ^ k)
    (hD : reading (Arithmetic.ofCount ratings.length + m.damping) = .number D)
    (hlimit : 2 ^ k * D < limit) :
    ∃ o, reading (m.offset ratings) = .number o ∧ |o| ≤ 2 ^ k := by
  obtain ⟨μ, hμ⟩ := isFinite_iff.mp m.globalMean_finite
  by_cases hzero : ratings = [] ∧ reading m.damping = .number 0
  · exact ⟨μ, by rw [m.offset_of_zero hzero, hμ], hmean μ hμ⟩
  · have hDpos : 0 < D := (numLt_iff reading_zero hD).mp (m.denominator_pos hzero)
    obtain ⟨d, hd, hd0⟩ := m.exists_reading_damping
    obtain ⟨⟨c, hc⟩, -⟩ := number_of_reading_add hD
    have hDvalue := hD
    rw [reading_add hc hd] at hDvalue
    obtain ⟨-, rfl⟩ := nearest_eq_number_iff.mp hDvalue
    obtain ⟨N, hN, hNle⟩ := m.exists_numerator_le hc hd hμ hd0 hratings (hmean μ hμ) hlimit
    rw [m.offset_of_ne hzero]
    exact exists_reading_div_le hk hN hD hDpos hNle

end MeanCentering

/-! ## 2. Mean and deviation -/

namespace MeanVariance

variable {ratings : List Float} {m : ℚ} {k : ℕ}

/-- The mean is a number exactly when the sum is. -/
theorem exists_reading_mean_iff (hne : ratings ≠ []) :
    (∃ m, reading (mean ratings) = .number m) ↔ ∃ s, reading (total ratings) = .number s :=
  ⟨fun ⟨_, hm⟩ => number_of_reading_div hm,
    fun ⟨_, hs⟩ => (exists_reading_div_count (List.length_pos_iff.mpr hne) hs).imp fun _ h => h.1⟩

/-- **The scale is a number exactly when the sum of the squares is.** -/
theorem isFinite_scale_iff (hne : ratings ≠ []) (hlen : ratings.length ≤ 2 ^ 53)
    (hmean : reading (mean ratings) = .number m)
    (hratings : ∀ x ∈ ratings, ∃ q, reading x = .number q) :
    (∃ r, reading (scale ratings) = .number r) ↔
      ∃ s, reading (total (squares ratings)) = .number s := by
  constructor
  · rintro ⟨r, hr⟩
    rcases atLeast_total_squares hmean hratings with ⟨s, hs, -⟩ | hinf
    · exact ⟨s, hs⟩
    · have hpos : (0 : ℚ) < (squares ratings).length := by
        exact_mod_cast List.length_pos_iff.mpr (squares_ne_nil hne)
      have hvariance : reading (variance ratings) = .infinite .positive := by
        rw [variance_eq]
        exact reading_infinite_div hinf
          (reading_ofCount_of_le (by rwa [length_squares])) hpos
      have hdeviation : reading (deviation ratings) = .infinite .positive :=
        reading_sqrt_of_infinite hvariance
      rw [scale_eq_deviation (k := 0) (.inr hdeviation) (by norm_num), hdeviation] at hr
      cases hr
  · rintro ⟨s, hs⟩
    obtain ⟨-, d, -, hd, -⟩ := deviation_of_total hne hmean hratings hs
    rcases scale_eq_or ratings with hscale | hscale <;> rw [hscale]
    · exact ⟨1, reading_one⟩
    · exact ⟨d, hd⟩

/-- **Ratings up to `2 ^ k` have a mean up to `2 ^ k` and a scale up to `2 ^ (k + 1)`.** -/
theorem exists_scale_le (hne : ratings ≠ []) (hk : k ≤ 484)
    (hratings : ∀ x ∈ ratings, ∃ q, reading x = .number q ∧ |q| ≤ 2 ^ k) :
    (∃ m, reading (mean ratings) = .number m ∧ |m| ≤ 2 ^ k) ∧
      ∃ r, reading (scale ratings) = .number r ∧ r ≤ 2 ^ (k + 1) := by
  have hlimit := count_mul_lt_limit (j := k) ratings.length (by omega)
  obtain ⟨m, hm, hmle⟩ : ∃ m, reading (mean ratings) = .number m ∧ |m| ≤ 2 ^ (k : ℤ) :=
    exists_reading_mean reading_neg_zero hne (by omega)
      (fun x hx => by simpa only [zpow_natCast] using hratings x hx) hlimit
  rw [zpow_natCast] at hmle
  have hdistances : ∀ x ∈ ratings, ∃ q, reading x = .number q ∧ |q - m| ≤ 2 ^ ((k : ℤ) + 1) := by
    intro x hx
    obtain ⟨q, hq, hqle⟩ := hratings x hx
    refine ⟨q, hq, ?_⟩
    rw [zpow_add₀ (by norm_num : (2 : ℚ) ≠ 0), zpow_natCast, zpow_one]
    linarith [abs_sub q m]
  obtain ⟨d, hd, hdle⟩ := exists_reading_deviation hne hm (by omega) (by omega) hdistances
  refine ⟨⟨m, hm, hmle⟩, ?_⟩
  rcases scale_eq_or ratings with hscale | hscale <;> rw [hscale]
  · exact ⟨1, reading_one, one_le_pow₀ (by norm_num)⟩
  · exact ⟨d, hd, by exact_mod_cast hdle⟩

/-- Mean and scale are numbers exactly when both sums are. -/
theorem isFinite_mean_and_scale_iff (hne : ratings ≠ []) (hlen : ratings.length ≤ 2 ^ 53)
    (hratings : ∀ x ∈ ratings, ∃ q, reading x = .number q) :
    (Arithmetic.isFinite (mean ratings) = true ∧ Arithmetic.isFinite (scale ratings) = true) ↔
      Arithmetic.isFinite (total ratings) = true ∧
        Arithmetic.isFinite (total (squares ratings)) = true := by
  simp only [isFinite_iff]
  rw [← exists_reading_mean_iff hne]
  refine and_congr_right fun ⟨m, hm⟩ => ?_
  exact isFinite_scale_iff hne hlen hm hratings

end MeanVariance

/-! ## 3. The transformations -/

variable {σ : Type}

/-- **When the transformation of finite ratings is finite.**  For mean centering the scale is one,
and the offset is finite exactly when the damped mean fits.  For standard scores the scale is above
zero, and both are finite exactly when the sums of the ratings and of the squares are.  Neither can
fail for ratings that are bounded by a power of two, unless the power is very large. -/
theorem transformation_finite_iff (user : Int) {v : RatingVector Float} (s : σ)
    (hfinite : ∀ x ∈ v.known, Arithmetic.isFinite x = true) :
    (∀ m : MeanCentering Float, ∃ offset : Float,
      ((m.normalizer : Normalizer σ (Rescaling Float) Float).transformation user v).runFrom s =
        (.ok (.shiftScale offset 1.0), s) ∧
      (Arithmetic.isFinite offset = true ↔
        (v.known = [] ∧ reading m.damping = .number 0) ∨ m.Fits v.known) ∧
      ∀ k : ℕ, k ≤ 1023 → (∀ x ∈ v.known, ∀ q, reading x = .number q → |q| ≤ 2 ^ k) →
        (∀ μ, reading m.globalMean = .number μ → |μ| ≤ 2 ^ k) →
        ∀ D, reading (Arithmetic.ofCount v.known.length + m.damping) = .number D →
          2 ^ k * D < limit → ∃ o, reading offset = .number o ∧ |o| ≤ 2 ^ k) ∧
    ∃ offset scale : Float,
      ((MeanVariance.normalizer : Normalizer σ (Rescaling Float) Float).transformation user
        v).runFrom s = (.ok (.shiftScale offset scale), s) ∧
      Arithmetic.numLt Arithmetic.zero scale = true ∧
      (v.known.length ≤ 2 ^ 53 →
        ((Arithmetic.isFinite offset = true ∧ Arithmetic.isFinite scale = true) ↔
          Arithmetic.isFinite (MeanVariance.total v.known) = true ∧
            Arithmetic.isFinite (MeanVariance.total (MeanVariance.squares v.known)) = true)) ∧
      ∀ k : ℕ, k ≤ 484 → (∀ x ∈ v.known, ∀ q, reading x = .number q → |q| ≤ 2 ^ k) →
        (∃ o, reading offset = .number o ∧ |o| ≤ 2 ^ k) ∧
          ∃ r, reading scale = .number r ∧ r ≤ 2 ^ (k + 1) := by
  have hnumbers : ∀ x ∈ v.known, ∃ q, reading x = .number q := fun x hx =>
    isFinite_iff.mp (hfinite x hx)
  have hbounded : ∀ k : ℕ, (∀ x ∈ v.known, ∀ q, reading x = .number q → |q| ≤ 2 ^ k) →
      ∀ x ∈ v.known, ∃ q, reading x = .number q ∧ |q| ≤ 2 ^ k := fun k hk x hx =>
    (hnumbers x hx).imp fun q hq => ⟨hq, hk x hx q hq⟩
  constructor
  · intro m
    refine ⟨m.offset v.known, rfl, m.isFinite_offset_iff, fun k hk hratings hmean D hD hlimit => ?_⟩
    exact m.exists_offset_le hk (hbounded k hratings) hmean hD hlimit
  · by_cases hnil : v.known = []
    · have hfit : MeanVariance.fit v.known = .shiftScale 0.0 1.0 := by
        rw [hnil]
        rfl
      refine ⟨0.0, 1.0, ?_, by decide +kernel, fun _ => ?_, fun k _ _ => ?_⟩
      · rw [MeanVariance.transformation_eq, hfit]
      · rw [hnil]
        exact iff_of_true (by decide +kernel) (by decide +kernel)
      · exact ⟨⟨0, reading_zero, by simp⟩, 1, reading_one, one_le_pow₀ (by norm_num)⟩
    · refine ⟨MeanVariance.mean v.known, MeanVariance.scale v.known, ?_,
        MeanVariance.zero_numLt_scale v.known,
        fun hlen => MeanVariance.isFinite_mean_and_scale_iff hnil hlen hnumbers,
        fun k hk hratings => MeanVariance.exists_scale_le hnil hk (hbounded k hratings)⟩
      rw [MeanVariance.transformation_eq, MeanVariance.fit_of_ne_nil hnil]

/-- Ratings of 4 and -4: plain centering shifts them by at most 4, and their standard scores have a
scale up to 8. -/
theorem transformation_finite_of_fours :
    (∃ offset : Float, ((MeanCentering.plain.normalizer : Normalizer Unit _ Float).transformation 1
        (.ofPairs [(10, 4.0), (11, -4.0)])).runFrom () = (.ok (.shiftScale offset 1.0), ()) ∧
      ∃ o, reading offset = .number o ∧ |o| ≤ 2 ^ 2) ∧
    ∃ offset scale : Float, ((MeanVariance.normalizer : Normalizer Unit _ _).transformation 1
        (.ofPairs [(10, 4.0), (11, -4.0)])).runFrom () = (.ok (.shiftScale offset scale), ()) ∧
      Arithmetic.numLt Arithmetic.zero scale = true ∧
      ∃ r, reading scale = .number r ∧ r ≤ 2 ^ 3 := by
  have hknown : (RatingVector.ofPairs [(10, 4.0), (11, -4.0)]).known =
      ([4.0, -4.0] : List Float) := by
    decide +kernel
  have hfour : reading 4.0 = .number (2 ^ 52 * 2 ^ (-50 : ℤ)) :=
    reading_of_pack (by decide +kernel) (by norm_num) (by norm_num)
  have hbounded : ∀ x ∈ (RatingVector.ofPairs [(10, 4.0), (11, -4.0)]).known, ∀ q : ℚ,
      reading x = .number q → |q| ≤ 2 ^ 2 := by
    intro x hx q hq
    have habs : x.abs = 4.0 := by
      rw [hknown] at hx
      fin_cases hx <;> decide +kernel
    have hread := reading_abs hq
    rw [habs, hfour] at hread
    rw [← Reading.number.inj hread]
    norm_num
  have hcount : reading (Arithmetic.ofCount 2 + MeanCentering.plain.damping) = .number 2 := by
    have htwo : reading (Arithmetic.ofCount 2) = .number 2 :=
      reading_ofCount_of_le (by norm_num : 2 ≤ 2 ^ 53)
    have hsum : reading (Arithmetic.ofCount 2 + MeanCentering.plain.damping) = nearest (2 + 0) :=
      reading_add htwo reading_zero
    rw [hsum, add_zero, nearest_of_representable (representable_of_reading htwo)
      (abs_lt_limit_of_reading htwo)]
  obtain ⟨hcentered, offset, scale, hcall, hpos, -, hle⟩ :=
    transformation_finite_iff 1 (v := .ofPairs [(10, 4.0), (11, -4.0)]) ()
      (by rw [hknown]; decide +kernel)
  refine ⟨?_, offset, scale, hcall, hpos, (hle 2 (by norm_num) hbounded).2⟩
  obtain ⟨shift, hshift, -, hshiftle⟩ := hcentered .plain
  refine ⟨shift, hshift, hshiftle 2 (by norm_num) hbounded (fun μ hμ => ?_) 2 ?_ ?_⟩
  · rw [← Reading.number.inj (reading_zero.symm.trans hμ)]
    norm_num
  · rw [hknown]
    exact hcount
  · calc (2 : ℚ) ^ 2 * 2 = 2 ^ (3 : ℤ) := by norm_num
      _ < limit := two_zpow_lt_limit (by norm_num)

/-- Damping of two ratings, toward a global mean of `2 ^ 1023`. -/
def steepCentering : MeanCentering Float where
  damping := 2.0
  globalMean := .ofBits 0x7fe0000000000000
  damping_nonneg := by decide +kernel
  damping_finite := by decide +kernel
  globalMean_finite := by decide +kernel

/-- **Accepted settings and finite ratings can still make an infinite transformation.**  Without
ratings, two ratings of the global mean should leave the global mean, but their sum overflows; and
the squares of two ratings overflow where the ratings and their deviation do not. -/
theorem transformation_overflow :
    MeanCentering.Settings.build ⟨some 2.0, some (.ofBits 0x7fe0000000000000)⟩ =
        .ok steepCentering ∧
      (∃ offset : Float,
        ((steepCentering.normalizer : Normalizer Unit _ Float).transformation 1 .empty).runFrom () =
          (.ok (.shiftScale offset 1.0), ()) ∧ Arithmetic.isFinite offset = false) ∧
      (∀ x ∈ (RatingVector.ofPairs [(10, 1e200), (11, -1e200)] : RatingVector Float).known,
        Arithmetic.isFinite x = true) ∧
      ∃ scale : Float,
        ((MeanVariance.normalizer : Normalizer Unit _ _).transformation 1
          (.ofPairs [(10, 1e200), (11, -1e200)])).runFrom () =
            (.ok (.shiftScale 0.0 scale), ()) ∧ Arithmetic.isFinite scale = false := by
  have hfit : MeanVariance.fit (RatingVector.ofPairs [(10, 1e200), (11, -1e200)]).known =
      .shiftScale 0.0 (MeanVariance.scale [1e200, -1e200]) := by
    decide +kernel
  refine ⟨steepCentering.build_checked, ⟨steepCentering.offset [], rfl, by decide +kernel⟩,
    by decide +kernel, MeanVariance.scale [1e200, -1e200], ?_, by decide +kernel⟩
  rw [MeanVariance.transformation_eq, hfit]

end PeerRatings
