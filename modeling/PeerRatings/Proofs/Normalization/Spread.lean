/-
# The computed spread of ratings

The scale of standard scores is a computed standard deviation.  Distances from the computed mean
are squared, the mean of the squares is taken and then its root.  Each of these steps rounds, and
each of them keeps a bound that is a power of two.  So **where all distances from the mean are at
most `2 ^ k`, so is the deviation** (`exists_reading_deviation`), and where all squares are at least
`2 ^ (2 * k)`, the deviation is at least `2 ^ k` or too large (`atLeast_deviation`).

The scale is the deviation above `2 ^ -52` and one up to there.  It is above zero in any case
(`zero_numLt_scale`).
-/
import PeerRatings.Normalization.MeanVariance
import PeerRatings.Proofs.Arithmetic.Roots
import PeerRatings.Proofs.Arithmetic.Sums

namespace PeerRatings

open Rounding Unpacked

/-! ## 1. Squared distances -/

section Squares

variable {x y : Float} {q m : ℚ} {k : ℤ}

/-- The square of a distance of at least `2 ^ k`. -/
theorem atLeast_square (hx : reading x = .number q) (hy : reading y = .number m) (hk : -537 ≤ k)
    (h : 2 ^ k ≤ |q - m|) : AtLeast (2 ^ (2 * k)) ((x - y) * (x - y)) := by
  have hdistance := reading_sub hx hy
  unfold nearest at hdistance
  split at hdistance
  · have hle : 2 ^ k ≤ |rounded (q - m)| := by
      rw [abs_rounded]
      exact (representable_two_zpow (by omega)).le_rounded h
    have hsquare : (2 : ℚ) ^ (2 * k) ≤ rounded (q - m) * rounded (q - m) := by
      rw [two_zpow_two_mul, ← abs_mul_abs_self (rounded (q - m))]
      exact mul_self_le_mul_self (two_zpow_pos k).le hle
    exact nearest_atLeast (reading_mul hdistance hdistance) (representable_two_zpow (by omega))
      hsquare (mul_self_nonneg _)
  · exact .inr (reading_mul_self_of_infinite hdistance)

/-- The square of a distance of at most `2 ^ k`. -/
theorem exists_reading_square (hx : reading x = .number q) (hy : reading y = .number m)
    (hk : -537 ≤ k) (hk' : k < 512) (h : |q - m| ≤ 2 ^ k) :
    ∃ p, reading ((x - y) * (x - y)) = .number p ∧ |p| ≤ 2 ^ (2 * k) := by
  have hle : |rounded (q - m)| ≤ 2 ^ k := by
    rw [abs_rounded]
    exact (representable_two_zpow (by omega)).rounded_le h
  have hdistance : reading (x - y) = .number (rounded (q - m)) := by
    rw [reading_sub hx hy, nearest_of_lt (hle.trans_lt (two_zpow_lt_limit (by omega)))]
  have hsquare : |rounded (rounded (q - m) * rounded (q - m))| ≤ 2 ^ (2 * k) := by
    rw [abs_rounded, abs_mul, two_zpow_two_mul]
    refine Representable.rounded_le ?_ (mul_self_le_mul_self (abs_nonneg _) hle)
    rw [← two_zpow_two_mul]
    exact representable_two_zpow (by omega)
  refine ⟨_, ?_, hsquare⟩
  rw [reading_mul hdistance hdistance,
    nearest_of_lt (hsquare.trans_lt (two_zpow_lt_limit (by omega)))]

/-- The square of a distance is not negative, however large it is. -/
theorem atLeast_zero_square (hx : reading x = .number q) (hy : reading y = .number m) :
    AtLeast 0 ((x - y) * (x - y)) := by
  have hdistance := reading_sub hx hy
  unfold nearest at hdistance
  split at hdistance
  · exact nearest_atLeast (reading_mul hdistance hdistance) representable_zero (mul_self_nonneg _)
      (mul_self_nonneg _)
  · exact .inr (reading_mul_self_of_infinite hdistance)

end Squares

namespace MeanVariance

variable {ratings : List Float} {q m d : ℚ} {k : ℤ}

/-- The squared distances from the mean. -/
def squares (ratings : List Float) : List Float :=
  ratings.map fun r => (r - mean ratings) * (r - mean ratings)

/-- The root of the mean of the squares. -/
def deviation (ratings : List Float) : Float := (variance ratings).sqrt

theorem variance_eq (ratings : List Float) :
    variance ratings = total (squares ratings) / Arithmetic.ofCount (squares ratings).length := by
  rw [squares, List.length_map]
  rfl

theorem fit_of_ne_nil (hne : ratings ≠ []) :
    fit ratings = .shiftScale (mean ratings) (scale ratings) :=
  if_neg (by simpa using hne)

/-- What a call for the transformation answers. -/
theorem transformation_eq {σ : Type} (user : Int) (v : RatingVector Float) (s : σ) :
    ((normalizer : Normalizer σ (Rescaling Float) Float).transformation user v).runFrom s =
      (.ok (fit v.known), s) := rfl

theorem squares_ne_nil (h : ratings ≠ []) : squares ratings ≠ [] := by
  simpa [squares] using h

theorem length_squares (ratings : List Float) : (squares ratings).length = ratings.length :=
  List.length_map ..

/-! ## 2. The deviation -/

/-- The sum of the squares is a number that is not negative, or too large. -/
theorem atLeast_total_squares (hmean : reading (mean ratings) = .number m)
    (hratings : ∀ x ∈ ratings, ∃ q, reading x = .number q) :
    AtLeast 0 (total (squares ratings)) := by
  refine atLeast_zero_sum reading_neg_zero fun y hy => ?_
  obtain ⟨x, hx, rfl⟩ := List.mem_map.mp hy
  obtain ⟨q, hq⟩ := hratings x hx
  exact atLeast_zero_square hq hmean

/-- If the squares have a sum, the deviation is a number. -/
theorem deviation_of_total {s : ℚ} (hne : ratings ≠ [])
    (hmean : reading (mean ratings) = .number m)
    (hratings : ∀ x ∈ ratings, ∃ q, reading x = .number q)
    (htotal : reading (total (squares ratings)) = .number s) :
    ∃ v d, reading (variance ratings) = .number v ∧ reading (deviation ratings) = .number d ∧
      ∀ k : ℤ, -1074 ≤ k → v ≤ 2 ^ (2 * k) → d ≤ 2 ^ k := by
  have hlen : 0 < (squares ratings).length := List.length_pos_iff.mpr (squares_ne_nil hne)
  obtain ⟨v, hv, hnonneg, -⟩ := exists_reading_div_count hlen htotal
  have hv0 : 0 ≤ v := hnonneg ((atLeast_total_squares hmean hratings).le htotal)
  rw [← variance_eq] at hv
  obtain ⟨d, hd, hbounds⟩ := exists_reading_sqrt hv hv0
  exact ⟨v, d, hv, hd, fun k hk hle => (hbounds k hk).1 hle⟩

/-- **The deviation is at most `2 ^ k` if all distances from the mean are.** -/
theorem exists_reading_deviation (hne : ratings ≠ []) (hmean : reading (mean ratings) = .number m)
    (hk : -537 ≤ k) (hk' : k ≤ 485)
    (hratings : ∀ x ∈ ratings, ∃ q, reading x = .number q ∧ |q - m| ≤ 2 ^ k) :
    ∃ d, reading (deviation ratings) = .number d ∧ d ≤ 2 ^ k := by
  have hsquares : ∀ y ∈ squares ratings, ∃ p, reading y = .number p ∧ |p| ≤ 2 ^ (2 * k) := by
    intro y hy
    obtain ⟨x, hx, rfl⟩ := List.mem_map.mp hy
    obtain ⟨q, hq, hle⟩ := hratings x hx
    exact exists_reading_square hq hmean hk (by omega) hle
  have hlimit := count_mul_lt_limit (j := 2 * k) (squares ratings).length (by omega)
  obtain ⟨s, hs, -⟩ := exists_reading_sum reading_neg_zero (by omega) hsquares hlimit
  obtain ⟨v, d, hv, hd, hle⟩ := deviation_of_total hne hmean
    (fun x hx => (hratings x hx).imp fun _ h => h.1) hs
  obtain ⟨v', hv', hv'le⟩ := exists_reading_mean reading_neg_zero (squares_ne_nil hne) (by omega)
    hsquares hlimit
  rw [variance_eq] at hv
  obtain rfl := Reading.number.inj (hv.symm.trans hv')
  exact ⟨d, hd, hle k (by omega) ((le_abs_self v).trans hv'le)⟩

/-- **The deviation is at least `2 ^ k`, or too large, if the squares are at least `2 ^ (2 * k)`**,
or too large. -/
theorem atLeast_deviation (hne : ratings ≠ []) (hlen : ratings.length ≤ 2 ^ 53) (hk : -537 ≤ k)
    (hsquares : ∀ y ∈ squares ratings, AtLeast (2 ^ (2 * k)) y) :
    AtLeast (2 ^ k) (deviation ratings) := by
  have hvariance : AtLeast (2 ^ (2 * k)) (variance ratings) := by
    rw [variance_eq]
    exact atLeast_mean reading_neg_zero (squares_ne_nil hne) (by omega) hsquares
      (by rwa [length_squares])
  rcases hvariance with ⟨v, hv, hle⟩ | hinf
  · obtain ⟨d, hd, hbounds⟩ := exists_reading_sqrt hv ((two_zpow_pos _).le.trans hle)
    exact .inl ⟨d, hd, (hbounds k (by omega)).2 hle⟩
  · exact .inr (reading_sqrt_of_infinite hinf)

/-! ## 3. The scale -/

theorem reading_smallestSpread : reading smallestSpread = .number (2 ^ (-52 : ℤ)) := by
  have hpower : reading smallestSpread = .number (2 ^ 52 * 2 ^ (-104 : ℤ)) :=
    reading_of_pack (by decide +kernel) (by norm_num) (by norm_num)
  rwa [show (2 : ℚ) ^ 52 * 2 ^ (-104 : ℤ) = 2 ^ (-52 : ℤ) by norm_num] at hpower

/-- A deviation counts as spread if it is a number above `2 ^ -52`, or too large. -/
theorem spread_iff : smallestSpread < deviation ratings ↔
    (∃ d, reading (deviation ratings) = .number d ∧ 2 ^ (-52 : ℤ) < d) ∨
      reading (deviation ratings) = .infinite .positive :=
  decide_eq_true_iff.symm.trans (number_numLt_iff reading_smallestSpread)

theorem scale_eq_one (hd : reading (deviation ratings) = .number d) (hle : d ≤ 2 ^ (-52 : ℤ)) :
    scale ratings = 1.0 := by
  refine if_neg fun hlt => ?_
  rcases spread_iff.mp hlt with ⟨d', hd', hgt⟩ | hinf
  · rw [Reading.number.inj (hd.symm.trans hd')] at hle
    exact absurd hgt (not_lt.mpr hle)
  · exact Reading.noConfusion (hd.symm.trans hinf)

theorem scale_eq_deviation (h : AtLeast (2 ^ k) (deviation ratings)) (hk : -51 ≤ k) :
    scale ratings = deviation ratings := by
  refine if_pos (spread_iff.mpr ?_)
  rcases h with ⟨d, hd, hle⟩ | hinf
  · exact .inl ⟨d, hd, (zpow_lt_zpow_right₀ (by norm_num) (by omega)).trans_le hle⟩
  · exact .inr hinf

/-- The scale is one or the deviation. -/
theorem scale_eq_or (ratings : List Float) :
    scale ratings = 1.0 ∨ scale ratings = deviation ratings :=
  (ite_eq_or_eq ..).symm

/-- **The scale is above zero**, whatever the ratings are. -/
theorem zero_numLt_scale (ratings : List Float) :
    Arithmetic.numLt Arithmetic.zero (scale ratings) = true := by
  rw [zero_numLt_iff]
  by_cases hlt : smallestSpread < deviation ratings
  · have hscale : scale ratings = deviation ratings := if_pos hlt
    rw [hscale]
    rcases spread_iff.mp hlt with ⟨d, hd, hgt⟩ | hinf
    · exact .inl ⟨d, hd, (two_zpow_pos _).trans hgt⟩
    · exact .inr hinf
  · have hscale : scale ratings = 1.0 := if_neg hlt
    rw [hscale]
    exact .inl ⟨1, reading_one, one_pos⟩

end MeanVariance

end PeerRatings
