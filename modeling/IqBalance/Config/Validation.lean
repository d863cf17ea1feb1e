import IqBalance.Config
import IqBalance.FftSize

/-!
Which tunings are accepted. `Config.validate` returns the transform length of
an accepted tuning, or the first cause met for rejecting it; the causes are
tried in the order of their constructors. `Cadence.validate` is the part that
a running balancer repeats when its cadence changes.
-/

namespace IqBalance

/-- The two quantities that are estimated. -/
inductive Quantity where
  | phase
  | amplitude
  deriving DecidableEq, Repr

/-- Why a tuning is rejected. -/
inductive ConfigError (α : Type) where
  /-- The bin count is no supported transform length. -/
  | fftSize (bins : Nat)
  /-- The lookback capacity is no power of two from 2 on. -/
  | lookbackCapacity (capacity : Nat)
  /-- The first averaging depth is not in `1 ..= warmupCycles`, or not below the capacity. -/
  | minLookback (plan : LookbackPlan)
  /-- A count of the cadence is zero. -/
  | integration (cadence : Cadence)
  /-- The weight of a new sample is not in `(0, 1]`. -/
  | dcTimeConst (rate : α)
  /-- A starting value is not finite. -/
  | initialCorrection
  /-- Step bounds are not finite, not positive, or out of order. -/
  | stepBounds (quantity : Quantity) (bounds : StepBounds α)
  /-- The growth factor is below one or infinite. -/
  | stepIncrease (factor : α)
  /-- The shrink factor is not in `(0, 1]`. -/
  | stepDecrease (factor : α)
  /-- The thresholds do not satisfy `0 ≤ muShrinkBelow ≤ muGrowAbove`. -/
  | muThresholds
  /-- The bound on the ratio is not positive, or infinite. -/
  | maxMu (bound : α)
  /-- Half the bins or more are left out. -/
  | centerBinsToSkip (count : Nat)
  /-- One of the two small constants is not positive. -/
  | epsilons

/-- A power of two. -/
def isPowerOfTwo (n : Nat) : Bool := 2 ^ n.log2 == n

namespace Cadence

/-- Every count is at least one. -/
def isValid (c : Cadence) : Bool :=
  c.buffersToSkip != 0 && c.fftIntegration != 0 && c.correlationIntegration != 0

/-- Accept a cadence whose counts are all at least one. -/
def validate {α : Type} (c : Cadence) : Except (ConfigError α) Unit :=
  if c.isValid then .ok () else .error (.integration c)

end Cadence

/-- The transform length with this many bins. -/
def FftSize.ofBins {α : Type} (bins : Nat) : Except (ConfigError α) FftSize :=
  match FftSize.ofBins? bins with
  | some size => .ok size
  | none => .error (.fftSize bins)

namespace LookbackPlan

/-- The capacity is a power of two from 2 on. -/
def hasValidCapacity (p : LookbackPlan) : Bool := 2 ≤ p.capacity && isPowerOfTwo p.capacity

/-- The first averaging depth lies in `1 ..= warmupCycles` and below the capacity. -/
def hasValidDepth (p : LookbackPlan) : Bool :=
  p.minLookback != 0 && p.minLookback ≤ p.warmupCycles && p.minLookback < p.capacity

end LookbackPlan

variable {α : Type} [Scalar α]

/-- All three are finite, with `0 < min ≤ initial ≤ max`. What compares with nothing is not
rejected by the order, only by not being finite. -/
def StepBounds.isValid (b : StepBounds α) : Bool :=
  Scalar.isFinite b.initial && Scalar.isFinite b.min && Scalar.isFinite b.max &&
    !(b.min ≤ 0) && !(b.initial < b.min) && !(b.max < b.initial)

/-- `cause` unless `condition` holds. -/
def require {ε : Type} (condition : Bool) (cause : ε) : Except ε Unit :=
  if condition then .ok () else .error cause

namespace Config

/-- The transform length of an accepted tuning, or the first cause for rejecting it. -/
def validate (c : Config α) : Except (ConfigError α) FftSize := do
  let size ← FftSize.ofBins c.fftBins
  require c.lookback.hasValidCapacity (.lookbackCapacity c.lookback.capacity)
  require c.lookback.hasValidDepth (.minLookback c.lookback)
  c.cadence.validate
  require (0 < c.dcTimeConst && c.dcTimeConst ≤ 1) (.dcTimeConst c.dcTimeConst)
  require c.initial.isFinite .initialCorrection
  require c.phaseStep.isValid (.stepBounds .phase c.phaseStep)
  require c.amplitudeStep.isValid (.stepBounds .amplitude c.amplitudeStep)
  require (1 ≤ c.newton.stepIncrease && Scalar.isFinite c.newton.stepIncrease)
    (.stepIncrease c.newton.stepIncrease)
  require (0 < c.newton.stepDecrease && c.newton.stepDecrease ≤ 1)
    (.stepDecrease c.newton.stepDecrease)
  require (0 ≤ c.newton.muShrinkBelow && c.newton.muShrinkBelow ≤ c.newton.muGrowAbove)
    .muThresholds
  require (0 < c.newton.maxMu && Scalar.isFinite c.newton.maxMu) (.maxMu c.newton.maxMu)
  require (c.centerBinsToSkip < c.fftBins / 2) (.centerBinsToSkip c.centerBinsToSkip)
  require (0 < c.energyEpsilon && 0 < c.newton.denominatorEpsilon) .epsilons
  return size

end Config

end IqBalance
