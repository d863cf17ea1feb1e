import IqBalance.Config
import IqBalance.Json.Reader
import IqBalance.Json.Value

/-!
Tunings as JSON. Members that are missing from a tuning keep their standard
values; those of step bounds are all needed.
-/

namespace IqBalance

open Json

namespace StepBounds

/-- Step bounds as they are written. -/
def toJson (b : StepBounds Float32) : Value :=
  .record [("initial", .real b.initial), ("min", .real b.min), ("max", .real b.max)]

/-- How step bounds are read. -/
def shape : Shape (StepBounds Float32) where
  members :=
    [ .of "initial" readFloat32 fun b initial => { b with initial },
      .of "min" readFloat32 fun b min => { b with min },
      .of "max" readFloat32 fun b max => { b with max } ]
  start := ⟨0, 0, 0⟩
  complete := true

end StepBounds

namespace Config

/-- A tuning as it is written. -/
def toJson (c : Config Float32) : Value :=
  .record
    [ ("fft_bins", .count c.fftBins),
      ("fft_integration", .count c.cadence.fftIntegration),
      ("correlation_integration", .count c.cadence.correlationIntegration),
      ("buffers_to_skip", .count c.cadence.buffersToSkip),
      ("dc_time_const", .real c.dcTimeConst),
      ("initial_phase", .real c.initial.phase),
      ("initial_amplitude", .real c.initial.amplitude),
      ("phase_step", c.phaseStep.toJson),
      ("amplitude_step", c.amplitudeStep.toJson),
      ("step_increase", .real c.newton.stepIncrease),
      ("step_decrease", .real c.newton.stepDecrease),
      ("mu_shrink_below", .real c.newton.muShrinkBelow),
      ("mu_grow_above", .real c.newton.muGrowAbove),
      ("max_mu", .real c.newton.maxMu),
      ("lookback_capacity", .count c.lookback.capacity),
      ("warmup_cycles", .count c.lookback.warmupCycles),
      ("min_lookback", .count c.lookback.minLookback),
      ("center_bins_to_skip", .count c.centerBinsToSkip),
      ("energy_epsilon", .real c.energyEpsilon),
      ("denominator_epsilon", .real c.newton.denominatorEpsilon) ]

/-- How a tuning is read. -/
def shape : Shape (Config Float32) where
  members :=
    [ .of "fft_bins" readCount fun c fftBins => { c with fftBins },
      .of "fft_integration" readCount fun c n => { c with cadence.fftIntegration := n },
      .of "correlation_integration" readCount fun c n =>
        { c with cadence.correlationIntegration := n },
      .of "buffers_to_skip" readCount fun c n => { c with cadence.buffersToSkip := n },
      .of "dc_time_const" readFloat32 fun c dcTimeConst => { c with dcTimeConst },
      .of "initial_phase" readFloat32 fun c x => { c with initial.phase := x },
      .of "initial_amplitude" readFloat32 fun c x => { c with initial.amplitude := x },
      .of "phase_step" StepBounds.shape.read fun c phaseStep => { c with phaseStep },
      .of "amplitude_step" StepBounds.shape.read fun c amplitudeStep => { c with amplitudeStep },
      .of "step_increase" readFloat32 fun c x => { c with newton.stepIncrease := x },
      .of "step_decrease" readFloat32 fun c x => { c with newton.stepDecrease := x },
      .of "mu_shrink_below" readFloat32 fun c x => { c with newton.muShrinkBelow := x },
      .of "mu_grow_above" readFloat32 fun c x => { c with newton.muGrowAbove := x },
      .of "max_mu" readFloat32 fun c x => { c with newton.maxMu := x },
      .of "lookback_capacity" readCount fun c n => { c with lookback.capacity := n },
      .of "warmup_cycles" readCount fun c n => { c with lookback.warmupCycles := n },
      .of "min_lookback" readCount fun c n => { c with lookback.minLookback := n },
      .of "center_bins_to_skip" readCount fun c centerBinsToSkip => { c with centerBinsToSkip },
      .of "energy_epsilon" readFloat32 fun c energyEpsilon => { c with energyEpsilon },
      .of "denominator_epsilon" readFloat32 fun c x => { c with newton.denominatorEpsilon := x } ]
  start := standard
  complete := false

/-- Read a tuning from JSON text. -/
def ofJson (text : List UInt8) : Except Rejection (Config Float32) := parse shape.read text

end Config

end IqBalance
