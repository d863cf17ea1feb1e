import Mathlib
import IqBalance.Proofs.Balancer.ExactRun
import IqBalance.Proofs.Binary32.Positive

/-!
The control of one quantity.

A step is adapted to one ratio after another (`Axis.adaptAll`), and each time a
clamp moves it between its bounds. `StepBounds.Holds` says what a step within
bounds is, and `StepBounds.Confines` that bounds, a rule and an arithmetic keep
a step there; then any number of adaptations does (`Confines.adaptAll`). In
single precision a step times a factor may overflow or underflow and the ratio
may be no number at all, but the product is a number and not below zero, so the
clamp finds its way back (`confines_single`).

Over exact arithmetic the secant has a divisor (`NewtonRule.denominator_ne_zero`),
a candidate lies within `maxMu` steps of the current value
(`Axis.abs_candidate_sub_le`), and it is the current value if the utility there
is zero (`Axis.candidate_of_zero`).
-/

namespace IqBalance

variable {α : Type} [Scalar α]

/-! ### Steps within bounds -/

/-- A number above zero, from the least to the greatest step. -/
structure StepBounds.Holds (b : StepBounds α) (step : α) : Prop where
  isNumber : Scalar.isNaN step = false
  positive : 0 < step
  low : b.min ≤ step
  high : step ≤ b.max

/-- The axis after adaptations to ratios, in order. -/
def Axis.adaptAll (axis : Axis α) (rule : NewtonRule α) (mus : List α) : Except Fault (Axis α) :=
  mus.foldlM (fun axis mu => axis.adapt rule mu) axis

theorem Axis.adaptAll_append {axis next after : Axis α} {rule : NewtonRule α} {mus mus' : List α}
    (h : axis.adaptAll rule mus = .ok next) (h' : next.adaptAll rule mus' = .ok after) :
    axis.adaptAll rule (mus ++ mus') = .ok after := by
  rw [adaptAll, List.foldlM_append]
  exact bind_eq_ok_iff.mpr ⟨next, h, h'⟩

theorem Axis.adaptAll_singleton {axis after : Axis α} {rule : NewtonRule α} {mu : α} :
    axis.adaptAll rule [mu] = .ok after ↔ axis.adapt rule mu = .ok after := by
  rw [adaptAll, List.foldlM_cons, bind_eq_ok_iff]
  exact ⟨fun ⟨_, h, heq⟩ => (Except.ok.inj heq) ▸ h, fun h => ⟨after, h, rfl⟩⟩

theorem Axis.bounds_adaptAll {axis last : Axis α} {rule : NewtonRule α} {mus : List α}
    (h : axis.adaptAll rule mus = .ok last) : last.bounds = axis.bounds := by
  induction mus generalizing axis with
  | nil =>
    cases h
    rfl
  | cons mu rest ih =>
    obtain ⟨next, hnext, hrest⟩ := bind_eq_ok_iff.mp h
    exact (ih hrest).trans (bounds_adapt hnext)

/-- No step within the bounds is led out of them by the rule, and the first one is within. -/
structure StepBounds.Confines (b : StepBounds α) (rule : NewtonRule α) : Prop where
  ordered : b.min ≤ b.max
  start : ∀ {moved}, b.clampStep b.initial = .ok moved → b.Holds moved
  adapt : ∀ {axis : Axis α} {mu moved}, b.Holds axis.step →
    b.clampStep (axis.scaledStep rule mu) = .ok moved → b.Holds moved

namespace StepBounds.Confines

variable {b : StepBounds α} {rule : NewtonRule α} {axis : Axis α}

theorem holds_start (h : b.Confines rule) (haxis : Axis.start b = .ok axis) :
    b.Holds axis.step := by
  obtain ⟨step, hstep, haxis⟩ := bind_eq_ok_iff.mp haxis
  cases haxis
  exact h.start hstep

theorem holds_adapt (h : b.Confines rule) {adapted : Axis α} {mu : α} (hbounds : axis.bounds = b)
    (hstep : b.Holds axis.step) (hadapt : axis.adapt rule mu = .ok adapted) :
    b.Holds adapted.step := by
  obtain ⟨step, hclamp, hadapt⟩ := bind_eq_ok_iff.mp hadapt
  cases hadapt
  rw [hbounds] at hclamp
  exact h.adapt hstep hclamp

/-- Any ratios, in any number. -/
theorem adaptAll (h : b.Confines rule) (hbounds : axis.bounds = b) (hstep : b.Holds axis.step)
    (mus : List α) :
    ∃ adapted, axis.adaptAll rule mus = .ok adapted ∧ adapted.bounds = b ∧
      b.Holds adapted.step := by
  induction mus generalizing axis with
  | nil => exact ⟨axis, rfl, hbounds, hstep⟩
  | cons mu rest ih =>
    have hordered : axis.bounds.min ≤ axis.bounds.max := hbounds ▸ h.ordered
    obtain ⟨next, hnext⟩ := Axis.exists_adapt hordered rule mu
    obtain ⟨adapted, hrest, hadapted⟩ :=
      ih ((Axis.bounds_adapt hnext).trans hbounds) (h.holds_adapt hbounds hstep hnext)
    refine ⟨adapted, ?_, hadapted⟩
    rw [Axis.adaptAll, List.foldlM_cons]
    exact bind_eq_ok_iff.mpr ⟨next, hnext, hrest⟩

theorem holds_adaptAll (h : b.Confines rule) {last : Axis α} {mus : List α}
    (hstart : Axis.start b = .ok axis) (hlast : axis.adaptAll rule mus = .ok last) :
    b.Holds last.step := by
  obtain ⟨adapted, hadapted, -, hholds⟩ :=
    h.adaptAll (Axis.bounds_start hstart) (h.holds_start hstart) mus
  cases hlast.symm.trans hadapted
  exact hholds

end StepBounds.Confines

/-! ### Single precision -/

section SinglePrecision

open Binary32

namespace StepBounds

variable {b : StepBounds Float32}

theorem min_pos (h : b.isValid) : 0 < b.min := by
  simp only [isValid, Bool.and_eq_true, Bool.not_eq_true', decide_eq_false_iff_not] at h
  obtain ⟨⟨⟨⟨⟨-, hmin⟩, -⟩, hpos⟩, -⟩, -⟩ := h
  exact lt_of_not_le (by decide) (isNaN_of_isFinite hmin) hpos

theorem initial_pos (h : b.isValid) : 0 < b.initial := by
  refine Binary32.lt_of_lt_of_le (min_pos h) ?_
  simp only [isValid, Bool.and_eq_true, Bool.not_eq_true', decide_eq_false_iff_not] at h
  obtain ⟨⟨⟨⟨⟨hinitial, hmin⟩, -⟩, -⟩, hlow⟩, -⟩ := h
  exact le_of_not_lt (isNaN_of_isFinite hmin) (isNaN_of_isFinite hinitial) hlow

/-- A step that is not below zero is moved between its bounds. -/
theorem holds_clampStep (hmin : 0 < b.min) {step moved : Float32} (hstep : 0 ≤ step)
    (h : b.clampStep step = .ok moved) : b.Holds moved := by
  obtain ⟨magnitude, hclamp, h⟩ := bind_eq_ok_iff.mp h
  cases h
  have hnumber : step.abs.isNaN = false := (isNaN_abs step).trans (le_iff.mp hstep).2.1
  obtain ⟨hlow, hhigh⟩ := clamp_within hnumber hclamp
  have hone := reading_one_mul magnitude
  have hlow : b.min ≤ 1 * magnitude := (le_congr rfl hone).mpr hlow
  have hhigh : 1 * magnitude ≤ b.max := (le_congr hone rfl).mpr hhigh
  rw [if_neg (not_lt_of_le hstep)]
  exact {
    isNumber := (le_iff.mp hlow).2.1
    positive := Binary32.lt_of_lt_of_le hmin hlow
    low := hlow
    high := hhigh }

/-- Whatever the ratio is, a positive step is not led below zero. -/
theorem zero_le_scaledStep {rule : NewtonRule Float32} (hincrease : 0 < rule.stepIncrease)
    (hdecrease : 0 < rule.stepDecrease) {axis : Axis Float32} (hstep : 0 < axis.step)
    (mu : Float32) : 0 ≤ axis.scaledStep rule mu := by
  unfold Axis.scaledStep
  split
  · exact zero_le_mul hstep hdecrease
  · split
    · exact zero_le_mul hstep hincrease
    · exact Binary32.le_of_lt hstep

/-- Bounds and factors that pass their checks. -/
theorem confines_single (h : b.isValid) {rule : NewtonRule Float32}
    (hincrease : 1 ≤ rule.stepIncrease) (hdecrease : 0 < rule.stepDecrease) :
    b.Confines rule where
  ordered := min_le_max h
  start := holds_clampStep (min_pos h) (Binary32.le_of_lt (initial_pos h))
  adapt := fun hstep => holds_clampStep (min_pos h)
    (zero_le_scaledStep (Binary32.lt_of_lt_of_le (by decide) hincrease) hdecrease hstep.positive _)

end StepBounds

/-- What the checks of a tuning establish for its two steps. -/
theorem Config.Accepted.confines {config : Config Float32} {size : FftSize}
    (h : config.Accepted size) :
    config.phaseStep.Confines config.newton ∧ config.amplitudeStep.Confines config.newton :=
  ⟨StepBounds.confines_single h.phaseStep h.stepIncrease.1 h.stepDecrease.1,
    StepBounds.confines_single h.amplitudeStep h.stepIncrease.1 h.stepDecrease.1⟩

end SinglePrecision

/-! ### Exact arithmetic -/

section Exact

theorem Scalar.clamp_eq_ok_iff {x lo hi y : ℝ} :
    clamp x lo hi = .ok y ↔ lo ≤ hi ∧ y = max lo (min x hi) := by
  by_cases hbounds : lo ≤ hi
  · rw [clamp_eq_ok hbounds, Except.ok.injEq, and_iff_right hbounds, eq_comm]
    refine Eq.congr_right ?_
    split
    · rename_i hlow
      rw [min_eq_left (hlow.le.trans hbounds), max_eq_left hlow.le]
    · rename_i hlow
      split
      · rename_i hhigh
        rw [min_eq_right hhigh.le, max_eq_right hbounds]
      · rename_i hhigh
        rw [min_eq_left (not_lt.mp hhigh), max_eq_right (not_lt.mp hlow)]
  · rw [clamp_eq_error hbounds]
    simp [hbounds]

namespace StepBounds

variable {b : StepBounds ℝ}

theorem holds_exact_clampStep (hmin : 0 < b.min) {step moved : ℝ} (hstep : 0 ≤ step)
    (h : b.clampStep step = .ok moved) : b.Holds moved := by
  obtain ⟨magnitude, hclamp, h⟩ := bind_eq_ok_iff.mp h
  cases h
  obtain ⟨hbounds, rfl⟩ := Scalar.clamp_eq_ok_iff.mp hclamp
  rw [if_neg hstep.not_gt, one_mul]
  exact ⟨rfl, hmin.trans_le (le_max_left _ _), le_max_left _ _, max_le hbounds (min_le_right _ _)⟩

theorem confines_exact (h : b.isValid) {rule : NewtonRule ℝ} (hincrease : 1 ≤ rule.stepIncrease)
    (hdecrease : 0 < rule.stepDecrease) : b.Confines rule := by
  obtain ⟨hmin, hlow, hhigh⟩ := isValid_iff.mp h
  refine ⟨hlow.trans hhigh, holds_exact_clampStep hmin (hmin.le.trans hlow), ?_⟩
  intro axis mu moved hstep hclamp
  refine holds_exact_clampStep hmin ?_ hclamp
  have hpos := hstep.positive
  unfold Axis.scaledStep
  split
  · exact (mul_pos hpos hdecrease).le
  · split
    · exact (mul_pos hpos (zero_lt_one.trans_le hincrease)).le
    · exact hpos.le

end StepBounds

theorem Config.Accepted.exactConfines {config : Config ℝ} {size : FftSize}
    (h : config.Accepted size) :
    config.phaseStep.Confines config.newton ∧ config.amplitudeStep.Confines config.newton :=
  ⟨StepBounds.confines_exact h.phaseStep h.stepIncrease.1 h.stepDecrease.1,
    StepBounds.confines_exact h.amplitudeStep h.stepIncrease.1 h.stepDecrease.1⟩

/-- The secant never divides by zero. -/
theorem NewtonRule.denominator_ne_zero {rule : NewtonRule ℝ} (h : 0 < rule.denominatorEpsilon)
    (difference : ℝ) : rule.denominator difference ≠ 0 := by
  unfold denominator
  split
  · split
    · exact neg_ne_zero.mpr h.ne'
    · exact h.ne'
  · rename_i hlarge
    have hfar : rule.denominatorEpsilon ≤ |difference| := not_lt.mp hlarge
    exact abs_pos.mp (h.trans_le hfar)

namespace Axis

variable {axis : Axis ℝ} {rule : NewtonRule ℝ} {current u v : ℝ} {estimate : AxisEstimate ℝ}

/-- The candidate is the current value and a clamped number of steps. -/
theorem candidate_eq (h : axis.estimate rule current u v = .ok estimate) :
    estimate.candidate =
      current + axis.step * max (-rule.maxMu) (min (rule.secant u v) rule.maxMu) := by
  obtain ⟨bounded, hclamp, h⟩ := bind_eq_ok_iff.mp h
  cases h
  rw [(Scalar.clamp_eq_ok_iff.mp hclamp).2]

theorem abs_candidate_sub_le (hmu : 0 ≤ rule.maxMu) (hstep : 0 ≤ axis.step)
    (h : axis.estimate rule current u v = .ok estimate) :
    |estimate.candidate - current| ≤ axis.step * rule.maxMu := by
  have hlow := le_max_left (-rule.maxMu) (min (rule.secant u v) rule.maxMu)
  have hhigh := max_le (neg_le_self hmu) (min_le_right (rule.secant u v) rule.maxMu)
  rw [candidate_eq h, add_sub_cancel_left, abs_mul, abs_of_nonneg hstep]
  exact mul_le_mul_of_nonneg_left (abs_le.mpr ⟨hlow, hhigh⟩) hstep

theorem candidate_of_zero (hmu : 0 ≤ rule.maxMu)
    (h : axis.estimate rule current 0 v = .ok estimate) : estimate.candidate = current := by
  have hsecant : rule.secant 0 v = 0 := zero_div _
  rw [candidate_eq h, hsecant, min_eq_left hmu, max_eq_right (neg_nonpos.mpr hmu), mul_zero,
    add_zero]

end Axis

end Exact

end IqBalance
