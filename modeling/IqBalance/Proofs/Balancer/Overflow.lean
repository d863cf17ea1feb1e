import Mathlib
import IqBalance.Proofs.Balancer.Estimates
import IqBalance.Proofs.Balancer.AdaptiveSteps
import IqBalance.Proofs.Balancer.Publication
import IqBalance.Proofs.Binary32.Overflow

/-!
What discards a refresh in single precision.

The divisor of the secant is a number other than zero, whatever the utilities
are: a difference that is zero or too small makes way for the least magnitude,
which is above zero, and one that overflows is an infinity
(`NewtonRule.denominator_isDivisor`). So the ratio of finite utilities is a
number (`NewtonRule.isNaN_secant`), and clamped to finite bounds it is finite.
What follows is one product and one sum of finite numbers; the candidate is
finite unless one of the two overflows (`Axis.Overflows`,
`Axis.exists_estimates`). Every engine that a run reaches keeps its steps
where that applies (`Balancer.keepsBounds_of_run`).
-/

namespace IqBalance

open Binary32

/-! ### The ratio -/

namespace NewtonRule

variable {rule : NewtonRule Float32}

/-- The divisor of the secant is a number, and not a zero of either sign. -/
theorem denominator_isDivisor (h : 0 < rule.denominatorEpsilon) {difference : Float32}
    (hnumber : difference.isNaN = false) :
    (rule.denominator difference).isNaN = false ∧
      ∀ s, reading (rule.denominator difference) ≠ .zero s := by
  have hfloor : rule.denominatorEpsilon.isNaN = false := (lt_iff.mp h).2.1
  have hpositive := positive_reading h
  unfold denominator
  split
  · split
    · refine ⟨(isNaN_neg _).trans hfloor, fun s hzero => ?_⟩
      rw [reading_neg] at hzero
      exact (hpositive.ne_zero s).2 hzero
    · exact ⟨hfloor, fun s => (hpositive.ne_zero s).1⟩
  · rename_i hlarge
    refine ⟨hnumber, fun s hzero => hlarge ?_⟩
    -- A difference of zero would have been below the least magnitude.
    have habs : reading difference.abs = .zero .positive := by
      rw [reading_abs, hzero]
      rfl
    refine lt_iff.mpr ⟨(isNaN_abs _).trans hnumber, hfloor, ?_⟩
    exact (congrArg rank habs).trans_lt (lt_iff.mp h).2.2

/-- The ratio of finite utilities is a number. -/
theorem isNaN_secant (h : 0 < rule.denominatorEpsilon) {a b : Float32} (ha : a.isFinite = true)
    (hb : b.isFinite = true) : (rule.secant a b).isNaN = false := by
  obtain ⟨hnumber, hzero⟩ := denominator_isDivisor h (isNaN_sub ha hb)
  exact isNaN_div ha hnumber hzero

end NewtonRule

/-! ### The candidate -/

/-- A step of either sign with its magnitude between the least and the greatest step. -/
structure StepBounds.Covers (b : StepBounds Float32) (step : Float32) : Prop where
  low : b.min ≤ step.abs
  high : step.abs ≤ b.max

theorem StepBounds.Holds.covers {b : StepBounds Float32} {step : Float32} (h : b.Holds step) :
    b.Covers step := by
  have habs : reading step.abs = reading step := by
    rw [reading_abs]
    have hpositive := positive_reading h.positive
    generalize reading step = f at hpositive ⊢
    cases hpositive <;> rfl
  exact ⟨(le_congr rfl habs).mpr h.low, (le_congr habs rfl).mpr h.high⟩

theorem StepBounds.Covers.isFinite {b : StepBounds Float32} {step : Float32} (h : b.Covers step)
    (hvalid : b.isValid) : step.isFinite = true := by
  simp only [isValid, Bool.and_eq_true] at hvalid
  obtain ⟨⟨⟨⟨⟨-, hmin⟩, hmax⟩, -⟩, -⟩, -⟩ := hvalid
  rw [← isFinite_abs]
  exact isFinite_of_between hmin hmax h.low h.high

/-- The ratio that an estimate multiplies the step with. -/
def NewtonRule.boundedRatio {α : Type} [Scalar α] (rule : NewtonRule α) (a b : α) :
    Except Fault α :=
  Scalar.clamp (rule.secant a b) (-rule.maxMu) rule.maxMu

/-- A number of steps leads out of the range: the way does, or its end. -/
def Axis.Overflows (axis : Axis Float32) (current steps : Float32) : Prop :=
  Binary32.Overflows (value axis.step * value steps) ∨
    Binary32.Overflows (value current + value (axis.step * steps))

/-- What an estimate of finite utilities comes to: a ratio that is a number, clamped to its bounds,
and a candidate that is a number, and infinite exactly on overflow. -/
structure Axis.Estimates (axis : Axis Float32) (rule : NewtonRule Float32)
    (current a b steps : Float32) (estimate : AxisEstimate Float32) : Prop where
  ratio : rule.boundedRatio a b = .ok steps
  low : -rule.maxMu ≤ steps
  high : steps ≤ rule.maxMu
  returned : axis.estimate rule current a b = .ok estimate
  mu : estimate.mu = rule.secant a b
  candidate : estimate.candidate = current + axis.step * steps
  isNumber : estimate.candidate.isNaN = false
  infinite_iff : estimate.candidate.isFinite = false ↔ axis.Overflows current steps

/-- With a finite step and a finite bound on the ratio. -/
theorem Axis.exists_estimates {axis : Axis Float32} {rule : NewtonRule Float32}
    (hmu : 0 < rule.maxMu ∧ rule.maxMu.isFinite = true) (hepsilon : 0 < rule.denominatorEpsilon)
    (hstep : axis.step.isFinite = true) {current a b : Float32}
    (hcurrent : current.isFinite = true) (ha : a.isFinite = true) (hb : b.isFinite = true) :
    ∃ steps estimate, axis.Estimates rule current a b steps estimate := by
  obtain ⟨estimate, hestimate⟩ := exists_estimate (neg_le_self hmu.1) axis current a b
  obtain ⟨steps, hclamp, h⟩ := bind_eq_ok_iff.mp hestimate
  cases h
  obtain ⟨hlow, hhigh⟩ := clamp_within (rule.isNaN_secant hepsilon ha hb) hclamp
  have hsteps : steps.isFinite = true :=
    isFinite_of_between ((isFinite_neg _).trans hmu.2) hmu.2 hlow hhigh
  refine ⟨steps, _, hclamp, hlow, hhigh, hestimate, rfl, rfl,
    isNaN_add hcurrent (isNaN_mul hstep hsteps), ?_⟩
  rw [Overflows, ← isFinite_mul_eq_false_iff hstep hsteps]
  cases hway : (axis.step * steps).isFinite with
  | false =>
    refine iff_of_true (Bool.eq_false_iff.mpr fun hsum => ?_) (.inl rfl)
    exact Bool.false_ne_true (hway.symm.trans (isFinite_of_add hsum).2)
  | true => rw [isFinite_add_eq_false_iff hcurrent hway, or_iff_right (by decide)]

/-! ### The refresh -/

/-- A result that a check on it passes. -/
theorem exists_ok_of_any {ε β : Type} {result : Except ε β} {p : β → Bool}
    (h : result.toOption.any p = true) : ∃ y, result = .ok y ∧ p y = true := by
  cases result with
  | error e => cases h
  | ok y => exact ⟨y, rfl, h⟩

namespace Balancer

/-- With finite utilities the candidates decide between the two ends of a refresh. -/
theorem refresh_of_estimates {α : Type} [Scalar α] {b : Balancer α} {u v : Sample α}
    {phase amplitude : AxisEstimate α} (hu : b.utility .baseline = .ok u)
    (hv : b.utility .perturbed = .ok v) (hfinite : u.isFinite && v.isFinite)
    (hphase : b.phaseAxis.estimate b.config.newton b.ramp.target.phase u.im v.im = .ok phase)
    (hamplitude : b.amplitudeAxis.estimate b.config.newton b.ramp.target.amplitude u.re v.re =
      .ok amplitude)
    (hphaseStep : b.phaseAxis.bounds.min ≤ b.phaseAxis.bounds.max)
    (hamplitudeStep : b.amplitudeAxis.bounds.min ≤ b.amplitudeAxis.bounds.max) :
    ∃ after outcome, b.refresh = .ok (after, outcome) ∧
      if (⟨phase.candidate, amplitude.candidate⟩ : Correction α).isFinite then
        outcome.isPublished = true
      else outcome = .candidateNotFinite ∧ after = b := by
  obtain ⟨phaseAxis, hphaseAxis⟩ := Axis.exists_adapt hphaseStep b.config.newton phase.mu
  obtain ⟨amplitudeAxis, hamplitudeAxis⟩ :=
    Axis.exists_adapt hamplitudeStep b.config.newton amplitude.mu
  rw [refresh]
  simp only [hu, hv, hfinite, hphase, hamplitude, hphaseAxis, hamplitudeAxis, bind, Except.bind]
  cases (⟨phase.candidate, amplitude.candidate⟩ : Correction α).isFinite with
  | true => exact ⟨_, _, rfl, rfl⟩
  | false => exact ⟨_, _, rfl, rfl, rfl⟩

variable {memory : Allocator} {tables : (size : FftSize) → Tables Float32 size}
  {config : Config Float32}
  {size : FftSize} {b : Balancer Float32}

/-- The axes have the rule, the bounds and steps within the bounds of a tuning. -/
structure KeepsBounds (b : Balancer Float32) (config : Config Float32) : Prop where
  newton : b.config.newton = config.newton
  phaseBounds : b.phaseAxis.bounds = config.phaseStep
  amplitudeBounds : b.amplitudeAxis.bounds = config.amplitudeStep
  phaseStep : config.phaseStep.Covers b.phaseAxis.step
  amplitudeStep : config.amplitudeStep.Covers b.amplitudeAxis.step

theorem keepsBounds_of_run (hvalid : config.validate = .ok size) {b₀ : Balancer Float32}
    {calls : List (Call Float32)} {answers : List (Answer Float32)}
    (hcreate : create memory tables config = .ok b₀) (hrun : b₀.run calls = .ok (b, answers)) :
    b.KeepsBounds config := by
  obtain ⟨hphase, hamplitude⟩ := (Config.validate_eq_ok_iff.mp hvalid).confines
  obtain ⟨hphaseStep, hamplitudeStep⟩ := holds_of_run hphase hamplitude hcreate hrun
  obtain ⟨hphaseAxis, hamplitudeAxis⟩ := axes_of_run hrun
  refine ⟨newton_of_run hcreate hrun, ?_, ?_, hphaseStep.covers, hamplitudeStep.covers⟩ <;>
    obtain ⟨_, _, _, _, -, -, -, hphaseStart, hamplitudeStart, rfl⟩ := create_eq_ok_iff.mp hcreate
  · exact (Axis.bounds_adaptAll hphaseAxis).trans (Axis.bounds_start hphaseStart)
  · exact (Axis.bounds_adaptAll hamplitudeAxis).trans (Axis.bounds_start hamplitudeStart)

/-- A refresh with finite utilities and a finite target returns, and gives up on a candidate that
overflows. -/
theorem KeepsBounds.refreshes (h : b.KeepsBounds config) (haccepted : config.Accepted size)
    (htarget : b.ramp.target.isFinite = true) {u v : Sample Float32}
    (hu : b.utility .baseline = .ok u) (hv : b.utility .perturbed = .ok v)
    (huFinite : u.isFinite = true) (hvFinite : v.isFinite = true) :
    ∃ after outcome phaseSteps amplitudeSteps phase amplitude,
      b.refresh = .ok (after, outcome) ∧
      b.phaseAxis.Estimates config.newton b.ramp.target.phase u.im v.im phaseSteps phase ∧
      b.amplitudeAxis.Estimates config.newton b.ramp.target.amplitude u.re v.re amplitudeSteps
        amplitude ∧
      (outcome.isPublished = true ∨ outcome = .candidateNotFinite ∧ after = b) ∧
      (outcome = .candidateNotFinite ↔
        b.phaseAxis.Overflows b.ramp.target.phase phaseSteps ∨
          b.amplitudeAxis.Overflows b.ramp.target.amplitude amplitudeSteps) := by
  obtain ⟨htargetPhase, htargetAmplitude⟩ := Correction.isFinite_iff.mp htarget
  obtain ⟨hure, huim⟩ := Bool.and_eq_true_iff.mp huFinite
  obtain ⟨hvre, hvim⟩ := Bool.and_eq_true_iff.mp hvFinite
  obtain ⟨phaseSteps, phase, hphase⟩ := Axis.exists_estimates haccepted.maxMu haccepted.epsilons.2
    (h.phaseStep.isFinite haccepted.phaseStep) htargetPhase huim hvim
  obtain ⟨amplitudeSteps, amplitude, hamplitude⟩ :=
    Axis.exists_estimates haccepted.maxMu haccepted.epsilons.2
      (h.amplitudeStep.isFinite haccepted.amplitudeStep) htargetAmplitude hure hvre
  have hclamps := haccepted.clampsOrdered
  obtain ⟨after, outcome, hrefresh, hends⟩ := refresh_of_estimates hu hv
    (Bool.and_eq_true_iff.mpr ⟨huFinite, hvFinite⟩) (h.newton ▸ hphase.returned)
    (h.newton ▸ hamplitude.returned) (h.phaseBounds ▸ hclamps.phaseStep)
    (h.amplitudeBounds ▸ hclamps.amplitudeStep)
  have hdiscarded : ¬ (⟨phase.candidate, amplitude.candidate⟩ : Correction Float32).isFinite ↔
      b.phaseAxis.Overflows b.ramp.target.phase phaseSteps ∨
        b.amplitudeAxis.Overflows b.ramp.target.amplitude amplitudeSteps := by
    rw [Correction.isFinite_iff, not_and_or, Bool.not_eq_true, Bool.not_eq_true,
      hphase.infinite_iff, hamplitude.infinite_iff]
  refine ⟨after, outcome, phaseSteps, amplitudeSteps, phase, amplitude, hrefresh, hphase,
    hamplitude, ?_⟩
  rw [← hdiscarded]
  split at hends
  · rename_i hfinite
    refine ⟨.inl hends, iff_of_false ?_ (not_not.mpr hfinite)⟩
    rintro rfl
    cases hends
  · rename_i hinfinite
    exact ⟨.inr hends, iff_of_true hends.1 hinfinite⟩

/-- With an accepted tuning, the ratio of finite utilities is a number; the candidate of an estimate
from a finite value, with a step within its bounds, is a number too, and infinite only when the step
times the clamped ratio overflows, or the sum of that and the value. Every run keeps the steps
within their bounds, and a refresh with finite utilities and a finite target gives up only on such
an overflow. -/
theorem discarded_only_on_overflow {tables : (size : FftSize) → Tables Float32 size}
    {config : Config Float32} {size : FftSize} (hvalid : config.validate = .ok size) :
    (∀ a b : Float32, a.isFinite = true → b.isFinite = true →
      (config.newton.secant a b).isNaN = false) ∧
    (∀ bounds ∈ [config.phaseStep, config.amplitudeStep], ∀ axis : Axis Float32,
      bounds.Covers axis.step → ∀ current a b : Float32, current.isFinite = true →
        a.isFinite = true → b.isFinite = true →
          ∃ steps estimate, axis.Estimates config.newton current a b steps estimate) ∧
    (∀ (memory : Allocator) (b₀ b : Balancer Float32) (calls : List (Call Float32))
      (answers : List (Answer Float32)),
      create memory tables config = .ok b₀ → b₀.run calls = .ok (b, answers) →
        b.KeepsBounds config) ∧
    ∀ b : Balancer Float32, b.KeepsBounds config → b.ramp.target.isFinite = true →
      ∀ u v : Sample Float32, b.utility .baseline = .ok u → b.utility .perturbed = .ok v →
        u.isFinite = true → v.isFinite = true →
          ∃ after outcome phaseSteps amplitudeSteps phase amplitude,
            b.refresh = .ok (after, outcome) ∧
            b.phaseAxis.Estimates config.newton b.ramp.target.phase u.im v.im phaseSteps phase ∧
            b.amplitudeAxis.Estimates config.newton b.ramp.target.amplitude u.re v.re
              amplitudeSteps amplitude ∧
            (outcome.isPublished = true ∨ outcome = .candidateNotFinite ∧ after = b) ∧
            (outcome = .candidateNotFinite ↔
              b.phaseAxis.Overflows b.ramp.target.phase phaseSteps ∨
                b.amplitudeAxis.Overflows b.ramp.target.amplitude amplitudeSteps) := by
  have haccepted := Config.validate_eq_ok_iff.mp hvalid
  refine ⟨fun a b ha hb => config.newton.isNaN_secant haccepted.epsilons.2 ha hb, ?_,
    fun memory b₀ b calls answers => keepsBounds_of_run hvalid, ?_⟩
  · intro bounds hbounds axis hcovers current a b hcurrent ha hb
    have hstep : axis.step.isFinite = true := by
      rcases List.mem_pair.mp hbounds with rfl | rfl
      · exact hcovers.isFinite haccepted.phaseStep
      · exact hcovers.isFinite haccepted.amplitudeStep
    exact Axis.exists_estimates haccepted.maxMu haccepted.epsilons.2 hstep hcurrent ha hb
  · intro b hkeeps htarget u v hu hv huFinite hvFinite
    exact hkeeps.refreshes haccepted htarget hu hv huFinite hvFinite

/-- Utilities whose difference overflows have a ratio; one step of the greatest order from a value
of that order is an overflow; and a refresh after a block of zeros is none. -/
theorem discarded_from_large_value :
    let axis : Axis Float32 := ⟨1e38, widestSteps.phaseStep⟩
    widestSteps.validate = .ok { log2 := 6 } ∧
    (3e38 - -3e38 : Float32).isFinite = false ∧
    (widestSteps.newton.secant 3e38 (-3e38)).isNaN = false ∧
    widestSteps.phaseStep.Covers axis.step ∧
    (∃ steps estimate, axis.Estimates widestSteps.newton 3e38 1 0 steps estimate ∧
      estimate.candidate.isFinite = false ∧ axis.Overflows 3e38 steps) ∧
    ∃ b₀ b answers u v, create .ample Tables.single widestSteps = .ok b₀ ∧
      b₀.run [silence] = .ok (b, answers) ∧ b.KeepsBounds widestSteps ∧
      b.ramp.target.isFinite = true ∧ b.utility .baseline = .ok u ∧
      b.utility .perturbed = .ok v ∧ u.isFinite = true ∧ v.isFinite = true ∧
      ∃ after outcome, b.refresh = .ok (after, outcome) ∧
        (outcome.isPublished = true ∨ outcome = .candidateNotFinite ∧ after = b) := by
  intro axis
  obtain ⟨hratio, hestimate, hreached, hrefresh⟩ :=
    @discarded_only_on_overflow Tables.single _ _ validate_widestSteps
  have hcovers : widestSteps.phaseStep.Covers axis.step := ⟨by decide +kernel, by decide +kernel⟩
  obtain ⟨steps, estimate, hestimates⟩ := hestimate _ List.mem_cons_self axis hcovers 3e38 1 0
    (by decide +kernel) (by decide +kernel) (by decide +kernel)
  have hcomputed : ∃ b₀ b answers, create .ample Tables.single widestSteps = .ok b₀ ∧
      b₀.run [silence] = .ok (b, answers) ∧ (b.ramp.target.isFinite &&
        (b.utility .baseline).toOption.any (·.isFinite) &&
        (b.utility .perturbed).toOption.any (·.isFinite)) :=
    exists_run_of_any (by decide +kernel)
  obtain ⟨b₀, b, answers, hcreate, hrun, hfinite⟩ := hcomputed
  simp only [Bool.and_eq_true] at hfinite
  obtain ⟨⟨htarget, hbaseline⟩, hperturbed⟩ := hfinite
  obtain ⟨u, hu, huFinite⟩ := exists_ok_of_any hbaseline
  obtain ⟨v, hv, hvFinite⟩ := exists_ok_of_any hperturbed
  have hkeeps := hreached .ample b₀ b _ _ hcreate hrun
  obtain ⟨after, outcome, -, -, -, -, hreturned, -, -, hends, -⟩ :=
    hrefresh b hkeeps htarget u v hu hv huFinite hvFinite
  have hinfinite : estimate.candidate.isFinite = false := by
    have hone : widestSteps.newton.boundedRatio 1 0 = .ok 1 := by decide +kernel
    cases hone.symm.trans hestimates.ratio
    rw [hestimates.candidate]
    decide +kernel
  exact ⟨validate_widestSteps, by decide +kernel,
    hratio 3e38 (-3e38) (by decide +kernel) (by decide +kernel), hcovers,
    ⟨steps, estimate, hestimates, hinfinite, hestimates.infinite_iff.mp hinfinite⟩,
    b₀, b, answers, u, v, hcreate, hrun, hkeeps, htarget, hu, hv, huFinite, hvFinite, after,
    outcome, hreturned, hends⟩

end Balancer

end IqBalance
