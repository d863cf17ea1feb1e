import Mathlib
import IqBalance.Proofs.Balancer.NoFault

/-!
Engines over exact arithmetic.

Here every comparison that fails turns round, so the step bounds of an accepted
tuning are `0 < min ≤ initial ≤ max` (`StepBounds.isValid_iff`). Every clamp
then has its bounds in order (`Config.Accepted.exactClampsOrdered`), an axis
starts at its initial step (`Axis.start_eq_ok`), and an engine has an answer to
every call (`Balancer.exists_run_of_accepted`). `Config.ones` is such a tuning,
of the shortest length (`Balancer.exists_run_ones`).
-/

namespace IqBalance

/-! ### Steps -/

theorem StepBounds.isValid_iff {b : StepBounds ℝ} :
    b.isValid ↔ 0 < b.min ∧ b.min ≤ b.initial ∧ b.initial ≤ b.max := by
  have hfinite : ∀ x : ℝ, Scalar.isFinite x = true := fun _ => rfl
  simp [isValid, hfinite, and_assoc]

theorem StepBounds.clampStep_eq_ok {b : StepBounds ℝ} {step : ℝ} (hmin : 0 < b.min)
    (hlow : b.min ≤ step) (hhigh : step ≤ b.max) : b.clampStep step = .ok step := by
  have hpos : 0 < step := hmin.trans_le hlow
  have habs : Scalar.abs step = step := abs_of_pos hpos
  rw [clampStep, habs, Scalar.clamp_eq_ok (hlow.trans hhigh), if_neg hlow.not_gt,
    if_neg hhigh.not_gt]
  simp [bind, Except.bind, pure, Except.pure, hpos.not_gt]

/-- An axis starts at its initial step. -/
theorem Axis.start_eq_ok {bounds : StepBounds ℝ} (h : bounds.isValid) :
    Axis.start bounds = .ok ⟨bounds.initial, bounds⟩ := by
  obtain ⟨hmin, hlow, hhigh⟩ := StepBounds.isValid_iff.mp h
  rw [start, StepBounds.clampStep_eq_ok hmin hlow hhigh]
  rfl

/-! ### Runs -/

theorem Config.Accepted.exactClampsOrdered {c : Config ℝ} {size : FftSize}
    (h : c.Accepted size) : c.ClampsOrdered where
  phaseStep := by
    obtain ⟨-, hlow, hhigh⟩ := StepBounds.isValid_iff.mp h.phaseStep
    exact hlow.trans hhigh
  amplitudeStep := by
    obtain ⟨-, hlow, hhigh⟩ := StepBounds.isValid_iff.mp h.amplitudeStep
    exact hlow.trans hhigh
  ratio := neg_le_self h.maxMu.1.le

namespace Balancer

/-- An accepted tuning makes an engine that answers every call. -/
theorem exists_run_of_accepted {memory : Allocator} (tables : (size : FftSize) → Tables ℝ size)
    {config : Config ℝ} {size : FftSize} (hvalid : config.validate = .ok size)
    (hmemory : ∀ buffer ∈ config.buffers, memory.Grants buffer) (hcadence : config.cadence.Fits)
    (hcycles : config.lookback.warmupCycles < countLimit) :
    ∃ b₀, create memory tables config = .ok b₀ ∧
      ∀ calls : List (Call ℝ), (∀ c ∈ calls, c.Fits) → Call.totalSamples calls < 2 ^ 63 →
        ∃ b answers, b₀.run calls = .ok (b, answers) := by
  have hclamps := (Config.validate_eq_ok_iff.mp hvalid).exactClampsOrdered
  obtain ⟨b₀, hcreate⟩ := exists_create tables hclamps hvalid hmemory
  refine ⟨b₀, hcreate, fun calls hfits hsamples => ?_⟩
  have hstart := InRange.create hclamps hcadence hcycles hcreate
  rw [← Nat.zero_add (Call.totalSamples calls)] at hsamples
  obtain ⟨b, answers, hrun, -⟩ := hstart.run hfits hsamples
  exact ⟨b, answers, hrun⟩

end Balancer

/-! ### An accepted tuning -/

/-- A tuning of the shortest length in which every factor is one. -/
noncomputable def Config.ones (cadence : Cadence) : Config ℝ where
  fftBins := 64
  cadence := cadence
  dcTimeConst := 1
  initial := ⟨0, 0⟩
  phaseStep := ⟨1, 1, 1⟩
  amplitudeStep := ⟨1, 1, 1⟩
  newton := ⟨1, 1, 1, 1, 1, 1⟩
  lookback := ⟨2, 1, 1⟩
  centerBinsToSkip := 0
  energyEpsilon := 1

theorem StepBounds.isValid_one : (⟨1, 1, 1⟩ : StepBounds ℝ).isValid := by
  have hpos : ¬ (1 : ℝ) ≤ 0 := by norm_num
  have hlt : ¬ (1 : ℝ) < 1 := by norm_num
  have hfinite : Scalar.isFinite (1 : ℝ) = true := rfl
  simp only [isValid, hfinite, decide_eq_false hpos, decide_eq_false hlt]
  rfl

theorem Config.validate_ones {cadence : Cadence} (h : cadence.isValid) :
    (Config.ones cadence).validate = .ok FftSize.shortest := by
  have hsize : FftSize.ofBins (α := ℝ) 64 = .ok FftSize.shortest := rfl
  have hinitial : (⟨0, 0⟩ : Correction ℝ).isFinite = true := rfl
  have hone : Scalar.isFinite (1 : ℝ) = true := rfl
  simp [validate, ones, hsize, require, Cadence.validate, h, bind, Except.bind, pure, Except.pure,
    LookbackPlan.hasValidCapacity, LookbackPlan.hasValidDepth, isPowerOfTwo,
    StepBounds.isValid_one, hinitial, hone]

/-- Any correction is one to start at, and any rate up to one is one to track at. -/
theorem Config.validate_startingAt {c : Config ℝ} {size : FftSize} (h : c.validate = .ok size)
    {rate : ℝ} (hrate : 0 < rate ∧ rate ≤ 1) (initial : Correction ℝ) :
    { c with dcTimeConst := rate, initial }.validate = .ok size :=
  validate_eq_ok_iff.mpr { validate_eq_ok_iff.mp h with dcTimeConst := hrate, initial := rfl }

/-- An accepted tuning of the shortest length, with an engine for it. -/
theorem Balancer.exists_run_ones (tables : (size : FftSize) → Tables ℝ size) {cadence : Cadence}
    (hvalid : cadence.isValid) (hfits : cadence.Fits) {rate : ℝ} (hrate : 0 < rate ∧ rate ≤ 1)
    (initial : Correction ℝ) :
    ∃ b₀, create .ample tables { Config.ones cadence with dcTimeConst := rate, initial } = .ok b₀ ∧
      ∀ calls : List (Call ℝ), (∀ c ∈ calls, c.Fits) → Call.totalSamples calls < 2 ^ 63 →
        ∃ b answers, b₀.run calls = .ok (b, answers) := by
  have hmemory : ∀ buffer ∈ Accumulators.buffers 64 ++ LookbackPlan.buffers ⟨2, 1, 1⟩,
      Allocator.ample.Grants buffer := by decide
  have haccepted := Config.validate_startingAt (Config.validate_ones hvalid) hrate initial
  have hcycles : 1 < countLimit := by decide
  exact exists_run_of_accepted tables haccepted hmemory hfits hcycles

end IqBalance
