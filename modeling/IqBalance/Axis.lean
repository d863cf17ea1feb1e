import IqBalance.Config

/-!
The control of one estimated quantity. Two values of a utility component, one
at the current point and one a step further, give the secant ratio `mu`: the
number of steps to the root. The candidate is the current value plus that
many steps, bounded; the step then shrinks when the root was near and grows
when it was far, within its bounds.
-/

namespace IqBalance

variable {α : Type} [Scalar α]

/-- A signed step with its magnitude moved into `[min, max]`. -/
def StepBounds.clampStep (b : StepBounds α) (step : α) : Except Fault α := do
  let magnitude ← Scalar.clamp (Scalar.abs step) b.min b.max
  return (if step < 0 then -1 else 1) * magnitude

namespace NewtonRule

/-- The denominator of the secant: what it is, or, if its magnitude is below the least one, that
least one with the sign of what it is. -/
def denominator (rule : NewtonRule α) (difference : α) : α :=
  if Scalar.abs difference < rule.denominatorEpsilon then
    if difference < 0 then -rule.denominatorEpsilon else rule.denominatorEpsilon
  else difference

/-- The number of steps to the root of the line through `a` and, one step further, `b`. -/
def secant (rule : NewtonRule α) (a b : α) : α := a / rule.denominator (a - b)

end NewtonRule

/-- An adaptive step and its bounds. -/
structure Axis (α : Type) where
  step : α
  bounds : StepBounds α
  deriving DecidableEq

/-- The secant ratio, and the candidate it leads to. -/
structure AxisEstimate (α : Type) where
  mu : α
  candidate : α
  deriving DecidableEq

namespace Axis

/-- The step at its initial magnitude. -/
def start (bounds : StepBounds α) : Except Fault (Axis α) := do
  let step ← bounds.clampStep bounds.initial
  return ⟨step, bounds⟩

/-- The candidate for a current value, from the utility component there and one step further. -/
def estimate (axis : Axis α) (rule : NewtonRule α) (current a b : α) :
    Except Fault (AxisEstimate α) := do
  let mu := rule.secant a b
  let bounded ← Scalar.clamp mu (-rule.maxMu) rule.maxMu
  return ⟨mu, current + axis.step * bounded⟩

/-- The step after a secant ratio, before it is moved into its bounds. -/
def scaledStep (axis : Axis α) (rule : NewtonRule α) (mu : α) : α :=
  if Scalar.abs mu < rule.muShrinkBelow then axis.step * rule.stepDecrease
  else if rule.muGrowAbove < Scalar.abs mu then axis.step * rule.stepIncrease
  else axis.step

/-- Shrink or grow the step after a secant ratio. -/
def adapt (axis : Axis α) (rule : NewtonRule α) (mu : α) : Except Fault (Axis α) := do
  let step ← axis.bounds.clampStep (axis.scaledStep rule mu)
  return { axis with step }

end Axis

end IqBalance
