/-
# One mean, computed three times

The mean of a user's ratings is computed in three places: as the mean of a vector, as the shift of
mean centering without damping, and as the shift of standard scores.  The three differ in the zero
that the sum starts from, and in the zeros that are added to sum and count where there is no
damping.  In doubles a zero can show, by its sign: ratings of `-0.0` have the mean `0.0` in the first
two places and `-0.0` in the third.

It shows in nothing else.  Each of the three says **what the sum of the readings says, over what the
count says** (`Reading.mean`), and that a zero cannot change.  No number has to be in range for it:
sums that overflow do so in all three places at the same rating, and opposite infinities leave
nothing in any of them.
-/
import PeerRatings.Proofs.Arithmetic.Readings
import PeerRatings.Proofs.Normalization.FiniteShifts

namespace PeerRatings

open Unpacked

variable {σ : Type} {ratings : List Float}

/-! ## 1. What a mean says -/

/-- What the mean of doubles says, by what they say: the sum from left to right, over the count. -/
def Unpacked.Reading.mean (readings : List Reading) : Reading :=
  (readings.foldl Reading.add (.number 0)).over (nearest readings.length)

/-- A count of something is above zero. -/
theorem zero_numLt_ofCount {n : ℕ} (hn : 0 < n) :
    Arithmetic.numLt Arithmetic.zero (Arithmetic.ofCount n : Float) = true := by
  rw [zero_numLt_iff]
  refine (atLeast_ofCount n).imp_left fun ⟨c, hc, hle⟩ => ⟨c, hc, ?_⟩
  have hmin : 0 < min n (2 ^ 53) := lt_min hn (by norm_num)
  exact (by exact_mod_cast hmin : (0 : ℚ) < (min n (2 ^ 53) : ℕ)).trans_le hle

/-- **A sum over a count says the mean of the readings**, whichever zero the sum starts from. -/
theorem reading_sum_over_count {start : Float} (hstart : reading start = .number 0)
    (hne : ratings ≠ []) :
    reading (ratings.foldl (· + ·) start / Arithmetic.ofCount ratings.length) =
      .mean (ratings.map reading) := by
  rw [reading_div_eq _ (zero_numLt_ofCount (List.length_pos_iff.mpr hne)), reading_foldl_add,
    hstart, reading_ofCount, Reading.mean, List.length_map]

/-! ## 2. The three places -/

theorem RatingVector.reading_mean {v : RatingVector Float} (hne : v.known ≠ []) :
    reading v.mean = .mean (v.known.map reading) := by
  rw [mean, if_neg (by simpa using hne), sum]
  exact reading_sum_over_count reading_zero hne

theorem MeanVariance.reading_mean (hne : ratings ≠ []) :
    reading (mean ratings) = .mean (ratings.map reading) :=
  reading_sum_over_count reading_neg_zero hne

/-- Without damping the shift adds a zero to the sum and a zero to the count. -/
theorem MeanCentering.reading_offset_plain (hne : ratings ≠ []) :
    reading (plain.offset ratings) = .mean (ratings.map reading) := by
  have hzero : ¬(ratings = [] ∧ reading (plain : MeanCentering Float).damping = .number 0) :=
    fun h => hne h.1
  have hproduct : reading ((plain : MeanCentering Float).damping * plain.globalMean) = .number 0 := by
    have hmul : reading ((plain : MeanCentering Float).damping * plain.globalMean) =
        nearest (0 * 0) :=
      reading_mul reading_zero reading_zero
    rw [hmul, zero_mul, nearest_of_representable representable_zero (by simpa using limit_pos)]
  have hcount : reading (Arithmetic.ofCount ratings.length + (plain : MeanCentering Float).damping) =
      reading (Arithmetic.ofCount ratings.length) :=
    reading_add_zero _ reading_zero
  rw [offset_of_ne _ hzero, reading_div_eq _ (denominator_pos _ hzero), reading_add_zero _ hproduct,
    hcount, ← reading_div_eq _ (zero_numLt_ofCount (List.length_pos_iff.mpr hne))]
  exact reading_sum_over_count reading_zero hne

/-! ## 3. They agree -/

/-- **The three means are one.**  For every vector with a known value, the mean of the vector, the
shift of mean centering with settings that were never made, and the shift of standard scores are
numerically equal, or all of them are absent.  Known values may be infinities and zeros of either
sign, and their sum may overflow. -/
theorem means_agree (user : Int) {v : RatingVector Float} (s : σ) (hsome : v.known ≠ []) :
    ∃ (m : MeanCentering Float) (centered scored scale : Float),
      MeanCentering.Settings.build {} = .ok m ∧
      ((m.normalizer : Normalizer σ (Rescaling Float) Float).transformation user v).runFrom s =
        (.ok (.shiftScale centered Arithmetic.one), s) ∧
      ((MeanVariance.normalizer : Normalizer σ (Rescaling Float) Float).transformation user
        v).runFrom s = (.ok (.shiftScale scored scale), s) ∧
      (Arithmetic.numEq v.mean centered = true ∧ Arithmetic.numEq v.mean scored = true ∧
          Arithmetic.numEq centered scored = true ∨
        Arithmetic.isAbsent v.mean = true ∧ Arithmetic.isAbsent centered = true ∧
          Arithmetic.isAbsent scored = true) := by
  have hmean := RatingVector.reading_mean hsome
  have hcentered := MeanCentering.reading_offset_plain hsome
  have hscored := MeanVariance.reading_mean hsome
  refine ⟨.plain, MeanCentering.plain.offset v.known, MeanVariance.mean v.known,
    MeanVariance.scale v.known, MeanCentering.build_empty, rfl, ?_, ?_⟩
  · rw [MeanVariance.transformation_eq, MeanVariance.fit_of_ne_nil hsome]
  · by_cases hnone : Reading.mean (v.known.map reading) = .absent
    · rw [hnone] at hmean hcentered hscored
      exact .inr ⟨isAbsent_iff.mpr hmean, isAbsent_iff.mpr hcentered, isAbsent_iff.mpr hscored⟩
    · have hequal : ∀ {x y : Float}, reading x = .mean (v.known.map reading) →
          reading y = .mean (v.known.map reading) → Arithmetic.numEq x y = true := fun hx hy =>
        numEq_iff_reading.mpr ⟨hx.trans hy.symm, hy ▸ hnone⟩
      exact .inl ⟨hequal hmean hcentered, hequal hmean hscored, hequal hcentered hscored⟩

/-- Two ratings of `-0.0`, with an absent one between them. -/
def negativeZeros : RatingVector Float := .ofPairs [(10, -0.0), (11, 0.0 / 0.0), (12, -0.0)]

/-- Their mean is `0.0` as the shift of mean centering and `-0.0` as that of standard scores.  These
are two doubles, and they are equal as numbers. -/
theorem means_agree_of_negative_zeros :
    negativeZeros.known ≠ [] ∧
      ((MeanCentering.plain.normalizer : Normalizer Unit _ Float).transformation 1
        negativeZeros).runFrom () = (.ok (.shiftScale 0.0 1.0), ()) ∧
      ((MeanVariance.normalizer : Normalizer Unit _ _).transformation 1 negativeZeros).runFrom () =
        (.ok (.shiftScale (-0.0) 1.0), ()) ∧
      (0.0 : Float) ≠ -0.0 ∧ Arithmetic.numEq 0.0 (-0.0 : Float) = true := by
  have hsome : negativeZeros.known ≠ [] := by decide +kernel
  obtain ⟨m, centered, scored, scale, hm, hcentered, hscored, hmeans⟩ :=
    means_agree 1 (v := negativeZeros) () hsome
  obtain rfl : MeanCentering.plain = m := Except.ok.inj (MeanCentering.build_empty.symm.trans hm)
  have hfit : MeanCentering.plain.fit negativeZeros.known = .shiftScale (0.0 : Float) 1.0 := by
    decide +kernel
  have hfit' : MeanVariance.fit negativeZeros.known = .shiftScale (-0.0) 1.0 := by decide +kernel
  have hshift := hcentered
  have hscore := hscored
  rw [MeanCentering.normalizer, Normalizer.transformation_fitted, hfit] at hshift
  rw [MeanVariance.transformation_eq, hfit'] at hscore
  obtain ⟨rfl, -⟩ := Rescaling.shiftScale.inj (Except.ok.inj (Prod.mk.inj hshift).1)
  obtain ⟨rfl, rfl⟩ := Rescaling.shiftScale.inj (Except.ok.inj (Prod.mk.inj hscore).1)
  have hpresent : Arithmetic.isAbsent (0.0 : Float) = false := by decide +kernel
  rcases hmeans with ⟨-, -, hequal⟩ | ⟨-, hnone, -⟩
  · exact ⟨hsome, hcentered, hscored, by decide +kernel, hequal⟩
  · rw [hpresent] at hnone
    cases hnone

end PeerRatings
