/-
# Standard scores of equal ratings

A user who gives one rating throughout has no spread, and should be shifted only.  Whether that
happens depends on the computed mean.  It is a rounded sum divided by the count, so it may miss the
rating, and then every distance from the mean is the same rounding error.

* If the mean misses the rating by at most `2 ^ -52`, the scale is one.
* If it misses it by twice that or more, **the scale is the rounding error itself**, up to a
  factor of two.  So three ratings of 2.8 are divided by `2 ^ -51`.
* If the mean is too large to be a number, so is the scale.

The mean hits the rating where no partial sum has too many digits, as with a rating that is a whole
number of half stars.  Tenths of a star have too many digits to begin with.
-/
import PeerRatings.Normalization.Method
import PeerRatings.Proofs.Normalization.Spread

namespace PeerRatings

open Rounding Unpacked

namespace MeanVariance

variable {σ : Type} {ratings : List Float} {q m : ℚ} {k : ℤ}

/-! ## 1. One distance for all ratings -/

/-- A mean that is near enough makes no spread. -/
theorem scale_of_near (hne : ratings ≠ []) (hequal : ∀ x ∈ ratings, reading x = .number q)
    (hmean : reading (mean ratings) = .number m) (hle : |q - m| ≤ 2 ^ (-52 : ℤ)) :
    scale ratings = 1.0 := by
  obtain ⟨d, hd, hdle⟩ := exists_reading_deviation hne hmean (by norm_num) (by norm_num)
    fun x hx => ⟨q, hequal x hx, hle⟩
  exact scale_eq_one hd hdle

/-- **A mean that is off by `2 ^ k` makes a deviation of `2 ^ k`**, or more. -/
theorem atLeast_deviation_of_far (hne : ratings ≠ []) (hlen : ratings.length ≤ 2 ^ 53)
    (hequal : ∀ x ∈ ratings, reading x = .number q) (hmean : reading (mean ratings) = .number m)
    (hk : -51 ≤ k) (hle : 2 ^ k ≤ |q - m|) : AtLeast (2 ^ k) (deviation ratings) := by
  refine atLeast_deviation hne hlen (by omega) fun y hy => ?_
  obtain ⟨x, hx, rfl⟩ := List.mem_map.mp hy
  exact atLeast_square (hequal x hx) hmean (by omega) hle

/-- A mean that is too large makes a scale that is too large. -/
theorem scale_of_infinite {sign : Float.Model.UnpackedFloat.Sign} (hne : ratings ≠ [])
    (hlen : ratings.length ≤ 2 ^ 53) (hequal : ∀ x ∈ ratings, reading x = .number q)
    (hmean : reading (mean ratings) = .infinite sign) :
    reading (scale ratings) = .infinite .positive := by
  have hdeviation : AtLeast (2 ^ (1024 : ℤ)) (deviation ratings) := by
    refine atLeast_deviation hne hlen (by norm_num) fun y hy => ?_
    obtain ⟨x, hx, rfl⟩ := List.mem_map.mp hy
    exact .inr (reading_mul_self_of_infinite (reading_sub_infinite (hequal x hx) hmean))
  rw [scale_eq_deviation hdeviation (by norm_num)]
  exact hdeviation.infinite

/-! ## 2. The transformation -/

/-- **Equal ratings are scaled by what the mean is off.**  The scale is one if the mean misses the
rating by at most `2 ^ -52`, and the miss itself, up to a factor of two, from `2 ^ -51` on; an
infinite mean makes an infinite scale.  Where all multiples of the rating up to the count are on the
grid, the mean misses nothing. -/
theorem equal_ratings_scale (user : Int) {v : RatingVector Float} (s : σ) (hsome : v.known ≠ [])
    (hequal : ∀ x ∈ v.known, reading x = .number q) :
    ∃ offset scale : Float,
      ((normalizer : Normalizer σ (Rescaling Float) Float).transformation user v).runFrom s =
        (.ok (.shiftScale offset scale), s) ∧
      (∀ m, reading offset = .number m → |q - m| ≤ 2 ^ (-52 : ℤ) → scale = 1.0) ∧
      (v.known.length ≤ 2 ^ 53 → ∀ m, reading offset = .number m → ∀ k : ℤ, -51 ≤ k →
        2 ^ k ≤ |q - m| → AtLeast (2 ^ k) scale ∧
          ∀ l : ℤ, l ≤ 485 → |q - m| ≤ 2 ^ l → ∃ r, reading scale = .number r ∧ r ≤ 2 ^ l) ∧
      (v.known.length ≤ 2 ^ 53 → ∀ sign, reading offset = .infinite sign →
        reading scale = .infinite .positive) ∧
      (v.known.length ≤ 2 ^ 53 → (∀ i ≤ v.known.length, Representable (i * q)) →
        v.known.length * |q| < limit → reading offset = .number q ∧ scale = 1.0) := by
  refine ⟨mean v.known, scale v.known, ?_, fun m hm => scale_of_near hsome hequal hm, ?_,
    fun hlen sign => scale_of_infinite hsome hlen hequal, ?_⟩
  · rw [transformation_eq, fit_of_ne_nil hsome]
  · intro hlen m hm k hk hle
    have hdeviation := atLeast_deviation_of_far hsome hlen hequal hm hk hle
    rw [scale_eq_deviation hdeviation hk]
    refine ⟨hdeviation, fun l hl hlt => ?_⟩
    have hkl : k ≤ l := (zpow_le_zpow_iff_right₀ (by norm_num : (1 : ℚ) < 2)).mp (hle.trans hlt)
    exact exists_reading_deviation hsome hm (by omega) hl fun x hx => ⟨q, hequal x hx, hlt⟩
  · intro hlen hrep hlimit
    have hmean : reading (mean v.known) = .number q :=
      reading_mean_of_equal reading_neg_zero hsome hequal hlen hrep hlimit
    refine ⟨hmean, scale_of_near hsome hequal hmean ?_⟩
    rw [sub_self, abs_zero]
    exact (two_zpow_pos _).le

end MeanVariance

/-- Two ratings of four: no partial sum has too many digits, and the scale is one. -/
theorem equal_ratings_scale_of_fours : ∃ offset : Float,
    ((MeanVariance.normalizer : Normalizer Unit _ _).transformation 1
        (.ofPairs [(10, 4.0), (11, 4.0)])).runFrom () = (.ok (.shiftScale offset 1.0), ()) ∧
      reading offset = .number 4 := by
  have hknown : (RatingVector.ofPairs [(10, 4.0), (11, 4.0)]).known =
      ([4.0, 4.0] : List Float) := by
    decide +kernel
  have hfour : reading 4.0 = .number 4 := by
    have hpower : reading 4.0 = .number (2 ^ 52 * 2 ^ (-50 : ℤ)) :=
      reading_of_pack (by decide +kernel) (by norm_num) (by norm_num)
    rwa [show (2 : ℚ) ^ 52 * 2 ^ (-50 : ℤ) = 4 by norm_num] at hpower
  obtain ⟨offset, scale, hcall, -, -, -, hexact⟩ :=
    MeanVariance.equal_ratings_scale (q := 4) 1 (v := .ofPairs [(10, 4.0), (11, 4.0)]) ()
      (by rw [hknown]; simp) (by rw [hknown]; simpa using hfour)
  rw [hknown, List.length_cons, List.length_singleton] at hexact
  have hmultiples : ∀ i : ℕ, i ≤ 1 + 1 → Representable ((i : ℚ) * 4) := by
    intro i hi
    have hsteps := representable_steps (n := i) (j := 2) (by omega) (by norm_num)
    rwa [show (2 : ℚ) ^ (2 : ℤ) = 4 by norm_num] at hsteps
  have hsum : ((1 + 1 : ℕ) : ℚ) * |4| < limit := by
    calc ((1 + 1 : ℕ) : ℚ) * |4| = 2 ^ (3 : ℤ) := by norm_num
      _ < limit := two_zpow_lt_limit (by norm_num)
  obtain ⟨hoffset, rfl⟩ := hexact (by norm_num) hmultiples hsum
  exact ⟨offset, hcall, hoffset⟩

/-- **Equal ratings need not be shifted only.**  The mean of three ratings of 2.8 misses them by one
unit in the last place, and that is what the ratings are divided by. -/
theorem equal_ratings_overscaled :
    (RatingVector.ofPairs [(10, 2.8), (11, 2.8), (12, 2.8)]).known =
        ([2.8, 2.8, 2.8] : List Float) ∧
      Arithmetic.isFinite (2.8 : Float) = true ∧
      ((MeanVariance.normalizer : Normalizer Unit _ _).transformation 1
        (.ofPairs [(10, 2.8), (11, 2.8), (12, 2.8)])).runFrom () =
          (.ok (.shiftScale (.ofBits 0x4006666666666665) (.ofBits 0x3cc0000000000000)), ()) ∧
      Float.ofBits 0x3cc0000000000000 ≠ 1.0 := by
  refine ⟨by decide +kernel, by decide +kernel, ?_, by decide +kernel⟩
  have hfit : MeanVariance.fit (RatingVector.ofPairs [(10, 2.8), (11, 2.8), (12, 2.8)]).known =
      .shiftScale (.ofBits 0x4006666666666665) (.ofBits 0x3cc0000000000000) := by
    decide +kernel
  rw [MeanVariance.transformation_eq, hfit]

end PeerRatings
