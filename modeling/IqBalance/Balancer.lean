import IqBalance.Axis
import IqBalance.Correction.Ramp
import IqBalance.Correlation.Utility
import IqBalance.DcTracker
import IqBalance.Lookback

/-!
The engine for one stream. Each block first loses its tracked offset. On every
`buffersToSkip`-th block an estimator pass adds the windows of that block to
the accumulators, at the correction in force and one step further; after
`correlationIntegration` passes the cycle ends and a refresh turns the
accumulators into a new target, or leaves everything as it was. Last, the
block is corrected along the ramp. `Outcome` says which of these happened.
-/

namespace IqBalance

/-- One published estimate. -/
structure Estimate (α : Type) where
  phaseMu : α
  amplitudeMu : α
  /-- The candidates of the two axes. -/
  raw : Correction α
  /-- The new target: the candidates after averaging. -/
  published : Correction α
  lookbackDepth : Nat
  deriving DecidableEq

/-- What a block led to. -/
inductive Outcome (α : Type) where
  /-- No pass was due. -/
  | idle
  /-- A pass ran; its cycle goes on. -/
  | passed
  /-- The cycle ended without a full window. -/
  | noWindow
  /-- The cycle ended with a utility that is not finite. -/
  | utilityNotFinite (baseline perturbed : Sample α)
  /-- The cycle ended with a candidate that is not finite. -/
  | candidateNotFinite
  /-- The cycle ended with a new target and these steps. -/
  | published (estimate : Estimate α) (phaseStep amplitudeStep : α)
  deriving DecidableEq

/-- The engine for one stream. -/
structure Balancer (α : Type) where
  config : Config α
  size : FftSize
  tables : Tables α size
  dc : DcTracker α
  ramp : Ramp α
  sums : Accumulators α size.bins
  phaseAxis : Axis α
  amplitudeAxis : Axis α
  lookback : Lookback α
  /-- The bin that the utility favours. -/
  optimalBin : Nat
  /-- Passes in the current cycle. -/
  integrated : Nat
  /-- Blocks since the last pass. -/
  skipped : Nat
  lastEstimate : Option (Estimate α)

/-- What a block led to, the corrected block, and the engine after it. -/
structure Processed (α : Type) where
  balancer : Balancer α
  block : Block α
  outcome : Outcome α

/-- A frequency as a fraction of the sample rate, brought into `[-1/2, 1/2]`: beyond it the upper
end is taken, and what is not a number stands for the centre. -/
def foldFrequency {α : Type} [Scalar α] (w : α) : α :=
  if Scalar.isNaN w then 0 else if Scalar.half < Scalar.abs w then Scalar.half else w

/-- The bin of a frequency, of `bins`. -/
def frequencyBin {α : Type} [Scalar α] (bins : Nat) (w : α) : Nat :=
  min (Scalar.nearestCount (Scalar.ofCount bins * (Scalar.half + foldFrequency w))) (bins - 1)

/-- The buffers that an engine needs, in the order in which they are asked for. -/
def Config.buffers {α : Type} (config : Config α) : List Buffer :=
  Accumulators.buffers config.fftBins ++ config.lookback.buffers

namespace Balancer

variable {α : Type} [Scalar α]

/-- An engine for an accepted tuning. `memory` grants its buffers or does not, and `tables` supplies
the tables of its transform length. -/
def create (memory : Allocator) (tables : (size : FftSize) → Tables α size) (config : Config α) :
    Except (Refusal α) (Balancer α) := do
  let size ← config.validate.mapError .invalid
  (memory.reserveAll (Accumulators.buffers size.bins)).mapError .allocation
  let lookback ← Lookback.create memory config.lookback
  let phaseAxis ← (Axis.start config.phaseStep).mapError .fault
  let amplitudeAxis ← (Axis.start config.amplitudeStep).mapError .fault
  return {
    config, size, lookback, phaseAxis, amplitudeAxis
    tables := tables size
    dc := .start config.dcTimeConst
    ramp := .atRest config.initial
    sums := .empty size.bins
    optimalBin := config.fftBins / 2
    integrated := 0
    skipped := 0
    lastEstimate := none }

/-- Favour the bin of a frequency, and begin the warm-up again. -/
def setOptimalPoint (b : Balancer α) (w : α) : Balancer α :=
  { b with
    optimalBin := frequencyBin b.config.fftBins w
    lookback := b.lookback.restart }

/-- Change the cadence and begin a new cycle. A cadence that is not accepted changes nothing. -/
def configure (b : Balancer α) (cadence : Cadence) : Except (ConfigError α) (Balancer α) := do
  cadence.validate
  return { b with
    config := { b.config with cadence }
    integrated := 0
    skipped := 0 }

/-- The correction one step further on both axes. -/
def perturbedPoint (b : Balancer α) : Correction α :=
  ⟨b.ramp.target.phase + b.phaseAxis.step, b.ramp.target.amplitude + b.amplitudeAxis.step⟩

/-- The utility of a trial. -/
def utility (b : Balancer α) (trial : Trial) : Except Fault (Sample α) :=
  b.sums.utility b.tables b.config.weighting trial b.optimalBin

/-- Turn the accumulators into a new target, unless a value on the way is not finite. The phase
follows the quadrature part of the utility and the amplitude the in-phase part. -/
def refresh (b : Balancer α) : Except Fault (Balancer α × Outcome α) := do
  let u ← b.utility .baseline
  let v ← b.utility .perturbed
  if !(u.isFinite && v.isFinite) then
    return (b, .utilityNotFinite u v)
  let phase ← b.phaseAxis.estimate b.config.newton b.ramp.target.phase u.im v.im
  let amplitude ← b.amplitudeAxis.estimate b.config.newton b.ramp.target.amplitude u.re v.re
  let raw : Correction α := ⟨phase.candidate, amplitude.candidate⟩
  if !raw.isFinite then
    return (b, .candidateNotFinite)
  let phaseAxis ← b.phaseAxis.adapt b.config.newton phase.mu
  let amplitudeAxis ← b.amplitudeAxis.adapt b.config.newton amplitude.mu
  let (lookback, published) := b.lookback.push raw
  let estimate : Estimate α :=
    ⟨phase.mu, amplitude.mu, raw, published, lookback.depth⟩
  return ({ b with
      phaseAxis, amplitudeAxis, lookback
      ramp := b.ramp.setTarget published
      lastEstimate := some estimate },
    .published estimate phaseAxis.step amplitudeAxis.step)

/-- The accumulators after both trials of a pass over a block; the first pass of a cycle begins
with empty ones. -/
def passSums (b : Balancer α) (block : Block α) : Accumulators α b.size.bins :=
  let start := if b.integrated = 0 then .empty b.size.bins else b.sums
  let limit := b.config.cadence.fftIntegration
  let sums := (start.accumulate b.tables block b.ramp.target .baseline limit).2
  (sums.accumulate b.tables block b.perturbedPoint .perturbed limit).2

/-- One estimator pass over a block, and the refresh if it ends the cycle. -/
def pass (b : Balancer α) (block : Block α) : Except Fault (Balancer α × Outcome α) := do
  let sums := b.passSums block
  let _ ← addCount sums.windows 0
  let integrated ← addCount b.integrated 1
  if integrated < b.config.cadence.correlationIntegration then
    return ({ b with sums, integrated }, .passed)
  let b := { b with sums, integrated := 0 }
  if sums.windows = 0 then
    return (b, .noWindow)
  b.refresh

/-- Take the next block of the stream. -/
def process (b : Balancer α) (block : Block α) : Except Fault (Processed α) := do
  let (dc, block) := b.dc.process block
  let skipped ← addCount b.skipped 1
  let (b, outcome) ←
    if skipped < b.config.cadence.buffersToSkip then
      pure ({ b with dc, skipped }, .idle)
    else
      Balancer.pass { b with dc, skipped := 0 } block
  let (ramp, block) := b.ramp.process block
  return ⟨{ b with ramp }, block, outcome⟩

end Balancer

end IqBalance
