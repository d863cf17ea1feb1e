import Mathlib
import IqBalance.Config.Validation
import IqBalance.Proofs.Binary32.Order

/-!
What an accepted tuning is.

`Config.Accepted` lists everything that the checks establish, and
`Config.validate_eq_ok_iff` says that a tuning is accepted exactly if all of it
holds. Over single precision that covers the bounds of every clamp the engine
makes (`Config.Accepted.clampsOrdered`): a comparison that failed has two sides
that are numbers, and so turns round.
-/

namespace IqBalance

variable {α : Type} [Scalar α]

/-- Everything that the checks of a tuning establish. -/
structure Config.Accepted (c : Config α) (size : FftSize) : Prop where
  fftBins : size.bins = c.fftBins
  capacity : c.lookback.hasValidCapacity
  depth : c.lookback.hasValidDepth
  cadence : c.cadence.isValid
  dcTimeConst : 0 < c.dcTimeConst ∧ c.dcTimeConst ≤ 1
  initial : c.initial.isFinite
  phaseStep : c.phaseStep.isValid
  amplitudeStep : c.amplitudeStep.isValid
  stepIncrease : 1 ≤ c.newton.stepIncrease ∧ Scalar.isFinite c.newton.stepIncrease
  stepDecrease : 0 < c.newton.stepDecrease ∧ c.newton.stepDecrease ≤ 1
  muThresholds : 0 ≤ c.newton.muShrinkBelow ∧ c.newton.muShrinkBelow ≤ c.newton.muGrowAbove
  maxMu : 0 < c.newton.maxMu ∧ Scalar.isFinite c.newton.maxMu
  centerBinsToSkip : c.centerBinsToSkip < c.fftBins / 2
  epsilons : 0 < c.energyEpsilon ∧ 0 < c.newton.denominatorEpsilon

omit [Scalar α] in
theorem FftSize.ofBins_eq_ok_iff {bins : Nat} {size : FftSize} :
    FftSize.ofBins (α := α) bins = .ok size ↔ size.bins = bins := by
  rw [← FftSize.ofBins?_eq_some_iff, FftSize.ofBins]
  cases FftSize.ofBins? bins <;> simp

/-- A check that is passed and the rest of the chain. -/
theorem require_bind_eq_ok_iff {ε β : Type} {condition : Bool} {cause : ε} {rest : Except ε β}
    {result : β} :
    (require condition cause >>= fun _ => rest) = .ok result ↔
      condition = true ∧ rest = .ok result := by
  cases condition <;> simp [require, bind, Except.bind]

omit [Scalar α] in
theorem Cadence.validate_eq_require (cadence : Cadence) :
    (cadence.validate : Except (ConfigError α) Unit) =
      require cadence.isValid (.integration cadence) :=
  rfl

/-- A tuning is accepted exactly if it passes every check. -/
theorem Config.validate_eq_ok_iff {c : Config α} {size : FftSize} :
    c.validate = .ok size ↔ c.Accepted size := by
  rw [validate, bind_eq_ok_iff]
  simp only [FftSize.ofBins_eq_ok_iff, Cadence.validate_eq_require, require_bind_eq_ok_iff,
    Bool.and_eq_true, decide_eq_true_eq]
  constructor
  · rintro ⟨_, hbins, hcapacity, hdepth, hcadence, hdc, hinitial, hphase, hamplitude, hincrease,
      hdecrease, hthresholds, hmaxMu, hskip, hepsilons, hsize⟩
    cases hsize
    exact ⟨hbins, hcapacity, hdepth, hcadence, hdc, hinitial, hphase, hamplitude, hincrease,
      hdecrease, hthresholds, hmaxMu, hskip, hepsilons⟩
  · rintro ⟨hbins, hcapacity, hdepth, hcadence, hdc, hinitial, hphase, hamplitude, hincrease,
      hdecrease, hthresholds, hmaxMu, hskip, hepsilons⟩
    exact ⟨size, hbins, hcapacity, hdepth, hcadence, hdc, hinitial, hphase, hamplitude, hincrease,
      hdecrease, hthresholds, hmaxMu, hskip, hepsilons, rfl⟩

/-- The standard tuning is accepted. -/
theorem Config.validate_standard : Config.standard.validate = .ok { log2 := 10 } :=
  validate_eq_ok_iff.mpr {
    fftBins := rfl
    capacity := by decide +kernel
    depth := by decide +kernel
    cadence := by decide +kernel
    dcTimeConst := by decide +kernel
    initial := by decide +kernel
    phaseStep := by decide +kernel
    amplitudeStep := by decide +kernel
    stepIncrease := by decide +kernel
    stepDecrease := by decide +kernel
    muThresholds := by decide +kernel
    maxMu := by decide +kernel
    centerBinsToSkip := by decide +kernel
    epsilons := by decide +kernel }

/-! ### The bounds of clamps -/

/-- Every pair of bounds that a tuning leads to is in order. -/
structure Config.ClampsOrdered (c : Config α) : Prop where
  phaseStep : c.phaseStep.min ≤ c.phaseStep.max
  amplitudeStep : c.amplitudeStep.min ≤ c.amplitudeStep.max
  ratio : -c.newton.maxMu ≤ c.newton.maxMu

open Binary32 in
theorem StepBounds.min_le_max {b : StepBounds Float32} (h : b.isValid) : b.min ≤ b.max := by
  simp only [isValid, Bool.and_eq_true, Bool.not_eq_true', decide_eq_false_iff_not] at h
  obtain ⟨⟨⟨⟨⟨hinitial, hmin⟩, hmax⟩, -⟩, hlow⟩, hhigh⟩ := h
  have hinitial := isNaN_of_isFinite hinitial
  exact Binary32.le_trans (le_of_not_lt (isNaN_of_isFinite hmin) hinitial hlow)
    (le_of_not_lt hinitial (isNaN_of_isFinite hmax) hhigh)

theorem Config.Accepted.clampsOrdered {c : Config Float32} {size : FftSize}
    (h : c.Accepted size) : c.ClampsOrdered where
  phaseStep := StepBounds.min_le_max h.phaseStep
  amplitudeStep := StepBounds.min_le_max h.amplitudeStep
  ratio := Binary32.neg_le_self h.maxMu.1

end IqBalance
