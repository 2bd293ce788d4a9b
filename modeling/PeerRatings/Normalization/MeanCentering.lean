/-
# Mean centering

Each user's ratings are shifted by their mean.  With few ratings the mean says little, so it can
be **damped**: with damping `d` and global mean `μ`, a user with the ratings `r₁ … rₙ` is shifted
by `(r₁ + … + rₙ + d·μ) / (n + d)`, the mean one would get from `d` further ratings of `μ`.  Where
`n + d` is zero there is nothing to divide by, and the user is shifted by `μ`.

Settings are checked before they are used: the damping has to be finite and at least zero, the
global mean finite.  Both are part of the type `MeanCentering`.  A setting that was never made is
zero, which passes.  When both are bad the damping is reported.
-/
import PeerRatings.Normalization.Normalizer
import PeerRatings.SettingsError

namespace PeerRatings

/-- Checked settings of mean centering. -/
structure MeanCentering (α : Type) [Arithmetic α] where
  /-- How many ratings of the global mean are added to a user's own. -/
  damping : α
  /-- The rating that a user is taken to give before any are known. -/
  globalMean : α
  damping_nonneg : Arithmetic.numLe Arithmetic.zero damping = true
  damping_finite : Arithmetic.isFinite damping = true
  globalMean_finite : Arithmetic.isFinite globalMean = true

namespace MeanCentering

variable {σ α : Type} [Arithmetic α]

/-! ## 1. Settings -/

/-- Settings as they are collected: each may have been made or not. -/
structure Settings (α : Type) where
  damping? : Option α := none
  globalMean? : Option α := none
  deriving DecidableEq

/-- Check the settings.  What was not set is zero. -/
def Settings.build (s : Settings α) : Except (SettingsError α) (MeanCentering α) :=
  let damping := s.damping?.getD Arithmetic.zero
  let mean := s.globalMean?.getD Arithmetic.zero
  if hd : Arithmetic.numLe Arithmetic.zero damping = true ∧ Arithmetic.isFinite damping = true then
    if hm : Arithmetic.isFinite mean = true then .ok ⟨damping, mean, hd.1, hd.2, hm⟩
    else .error (.badGlobalMean mean)
  else .error (.badDamping damping)

/-- Plain centering: no damping, global mean zero. -/
def plain : MeanCentering α where
  damping := Arithmetic.zero
  globalMean := Arithmetic.zero
  damping_nonneg := Arithmetic.numLe_zero
  damping_finite := Arithmetic.isFinite_zero
  globalMean_finite := Arithmetic.isFinite_zero

/-- Settings that were never made give plain centering. -/
theorem build_empty : (Settings.build {} : Except (SettingsError α) (MeanCentering α)) = .ok plain := by
  simp [Settings.build, plain]

/-- Checked settings pass the check again, so they are all that it accepts. -/
theorem build_checked (m : MeanCentering α) :
    Settings.build ⟨some m.damping, some m.globalMean⟩ = .ok m := by
  simp [Settings.build, m.damping_nonneg, m.damping_finite, m.globalMean_finite]

/-! ## 2. The shift -/

/-- The shift of a user with the given ratings. -/
def offset (m : MeanCentering α) (ratings : List α) : α :=
  let denominator := Arithmetic.ofCount ratings.length + m.damping
  if Arithmetic.numEq denominator Arithmetic.zero then m.globalMean
  else (RatingVector.sum ratings + m.damping * m.globalMean) / denominator

/-- Shift by the damped mean; the scale stays. -/
def fit (m : MeanCentering α) (ratings : List α) : Rescaling α :=
  .shiftScale (m.offset ratings) Arithmetic.one

/-- Mean centering as a normalizer. -/
def normalizer (m : MeanCentering α) : Normalizer σ (Rescaling α) α := .fitted m.fit

end MeanCentering

end PeerRatings
