import IqBalance.Balancer
import IqBalance.Json.Value

/-!
A snapshot of what changes in a running engine, for those who watch it, and
its JSON text.
-/

namespace IqBalance

/-- What changes in a running engine. -/
structure BalancerState (α : Type) where
  mean : Sample α
  target : Correction α
  applied : Correction α
  phaseStep : α
  amplitudeStep : α
  optimalBin : Nat
  warmup : Nat
  lookbackDepth : Nat
  integratedBlocks : Nat
  skippedBlocks : Nat
  deriving DecidableEq

/-- The snapshot of an engine. -/
def Balancer.state {α : Type} (b : Balancer α) : BalancerState α where
  mean := b.dc.mean
  target := b.ramp.target
  applied := b.ramp.applied
  phaseStep := b.phaseAxis.step
  amplitudeStep := b.amplitudeAxis.step
  optimalBin := b.optimalBin
  warmup := b.lookback.warmup
  lookbackDepth := b.lookback.depth
  integratedBlocks := b.integrated
  skippedBlocks := b.skipped

/-- A snapshot as it is written. -/
def BalancerState.toJson (s : BalancerState Float32) : Json.Value :=
  .record
    [ ("iavg", .real s.mean.re),
      ("qavg", .real s.mean.im),
      ("phase", .real s.target.phase),
      ("last_phase", .real s.applied.phase),
      ("phase_step", .real s.phaseStep),
      ("amplitude", .real s.target.amplitude),
      ("last_amplitude", .real s.applied.amplitude),
      ("amplitude_step", .real s.amplitudeStep),
      ("optimal_bin", .count s.optimalBin),
      ("warmup", .count s.warmup),
      ("lookback_depth", .count s.lookbackDepth),
      ("integrated_blocks", .count s.integratedBlocks),
      ("skipped_blocks", .count s.skippedBlocks) ]

end IqBalance
