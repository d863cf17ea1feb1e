import IqBalance.Correction

/-!
The tuning of a balancer: how often it estimates, where its correction starts,
how its steps adapt, how estimates are averaged, and how bins are weighted.
`Config.standard` is the tuning used where nothing else is said.
-/

namespace IqBalance

/-- Starting magnitude and bounds of an adaptive step. -/
structure StepBounds (α : Type) where
  initial : α
  min : α
  max : α
  deriving DecidableEq

/-- How often the engine estimates. -/
structure Cadence where
  /-- An estimator pass runs on every block of this number. -/
  buffersToSkip : Nat
  /-- The most windows a pass takes from one block. -/
  fftIntegration : Nat
  /-- Passes accumulated before a refresh. -/
  correlationIntegration : Nat
  deriving DecidableEq

/-- How a secant ratio is bounded and how it moves the step. -/
structure NewtonRule (α : Type) where
  stepIncrease : α
  stepDecrease : α
  /-- A ratio smaller in magnitude shrinks the step. -/
  muShrinkBelow : α
  /-- A ratio larger in magnitude grows the step. -/
  muGrowAbove : α
  /-- Bound on the ratio of a single estimate. -/
  maxMu : α
  /-- Least magnitude of the secant's denominator. -/
  denominatorEpsilon : α
  deriving DecidableEq

/-- How raw estimates are averaged. -/
structure LookbackPlan where
  /-- Estimates remembered. -/
  capacity : Nat
  /-- Estimates published as they are after a restart. -/
  warmupCycles : Nat
  /-- Earlier estimates in the first mean after the warm-up. -/
  minLookback : Nat
  deriving DecidableEq

/-- The tuning of one balancer. -/
structure Config (α : Type) where
  fftBins : Nat
  cadence : Cadence
  /-- Weight of a new sample in the tracked mean. -/
  dcTimeConst : α
  /-- The correction before the first estimate. -/
  initial : Correction α
  phaseStep : StepBounds α
  amplitudeStep : StepBounds α
  newton : NewtonRule α
  lookback : LookbackPlan
  /-- Bins on either side of the centre that the utility leaves out. -/
  centerBinsToSkip : Nat
  /-- Added to a bin's energy before dividing by it. -/
  energyEpsilon : α
  deriving DecidableEq

namespace Config

/-- Width in bins of the linear weight next to the centre. -/
def dcRampBins {α : Type} (c : Config α) : Nat := max (c.fftBins / 32) 1

/-- The step bounds used where nothing else is said. -/
def standardStep : StepBounds Float32 := ⟨1e-3, 1e-5, 1e-2⟩

/-- The tuning used where nothing else is said. -/
def standard : Config Float32 where
  fftBins := 1024
  cadence := ⟨2, 8, 8⟩
  dcTimeConst := 1e-4
  initial := ⟨0, 0⟩
  phaseStep := standardStep
  amplitudeStep := standardStep
  newton :=
    { stepIncrease := 1.1
      stepDecrease := 0.9
      muShrinkBelow := 1
      muGrowAbove := 10
      maxMu := 20
      denominatorEpsilon := 1e-12 }
  lookback := ⟨16, 4, 2⟩
  centerBinsToSkip := 2
  energyEpsilon := 1e-9

/-- The standard tuning with another starting correction. -/
def startingAt (initial : Correction Float32) : Config Float32 := { standard with initial }

end Config

end IqBalance
