import IqBalance.Refusal
import IqBalance.Text.NumberForm
import IqBalance.Text.Utf8

/-!
Failures that are reported to a caller, and their wording. `Failure.kind`
sorts them into four kinds; `Failure.message` is the kind and what is to be
said about the case.
-/

namespace IqBalance

open Text (NumberForm)

/-- The four kinds of failures. -/
inductive FailureKind where
  | fftSize
  | lookbackCapacity
  | parameter
  | allocation
  deriving DecidableEq, Repr

/-- A failure that is reported to a caller. -/
inductive Failure where
  | config (cause : ConfigError Float32)
  | allocation (cause : AllocationError)
  /-- There is no balancer behind the handle. -/
  | noBalancer
  | negativeCount (name : String) (value : Int)
  /-- The configuration text is not UTF-8. -/
  | notUtf8 (fault : Text.Utf8Fault)
  /-- The configuration text is UTF-8 and no configuration; `reason` is what the reader of JSON has
  to say about it. -/
  | notConfig (reason : String)

/-- The kind of an error in a tuning. -/
def ConfigError.kind {α : Type} : ConfigError α → FailureKind
  | .fftSize _ => .fftSize
  | .lookbackCapacity _ => .lookbackCapacity
  | _ => .parameter

/-- The name of a quantity's step bounds. -/
def Quantity.stepName : Quantity → String
  | .phase => "phase_step"
  | .amplitude => "amplitude_step"

/-- Step bounds in a message. -/
def StepBounds.text (b : StepBounds Float32) : String :=
  "StepConfig \x7b initial: " ++ NumberForm.detailed.write b.initial ++ ", min: " ++
    NumberForm.detailed.write b.min ++ ", max: " ++ NumberForm.detailed.write b.max ++ " \x7d"

/-- What is said about an error in a tuning. -/
def ConfigError.detail : ConfigError Float32 → String
  | .fftSize bins => s!"{bins} (must be a power of two in 64..=65536)"
  | .lookbackCapacity capacity => s!"{capacity} (must be a power of two >= 2)"
  | .minLookback plan =>
    s!"min_lookback {plan.minLookback} must be in 1..=warmup_cycles ({plan.warmupCycles}) " ++
      s!"and below capacity ({plan.capacity})"
  | .integration c =>
    s!"integration counts must be non-zero (skip={c.buffersToSkip}, fft={c.fftIntegration}, " ++
      s!"corr={c.correlationIntegration})"
  | .dcTimeConst rate => s!"dc_time_const must be in (0, 1], got {NumberForm.plain.write rate}"
  | .initialCorrection => "initial correction must be finite"
  | .stepBounds quantity bounds =>
    s!"{quantity.stepName}: need 0 < min <= initial <= max, got {bounds.text}"
  | .stepIncrease factor => s!"step_increase must be >= 1, got {NumberForm.plain.write factor}"
  | .stepDecrease factor =>
    s!"step_decrease must be in (0, 1], got {NumberForm.plain.write factor}"
  | .muThresholds => "mu_shrink_below must be in [0, mu_grow_above]"
  | .maxMu bound => s!"max_mu must be positive, got {NumberForm.plain.write bound}"
  | .centerBinsToSkip count => s!"center_bins_to_skip {count} leaves no usable bins"
  | .epsilons => "epsilons must be positive"

/-- What is said about a buffer that cannot be had. -/
def AllocationError.detail (e : AllocationError) : String :=
  s!"{e.buffer.name} ({e.buffer.entries} entries): memory allocation failed because " ++
    match e.cause with
    | .capacityOverflow => "the computed capacity exceeded the collection's maximum"
    | .allocatorRefused => "the memory allocator returned an error"

/-- The words for a kind. -/
def FailureKind.label : FailureKind → String
  | .fftSize => "Invalid FFT size"
  | .lookbackCapacity => "Invalid lookback capacity"
  | .parameter => "Invalid parameter"
  | .allocation => "Allocation failed"

namespace Failure

/-- The kind of a failure. -/
def kind : Failure → FailureKind
  | .config cause => cause.kind
  | .allocation _ => .allocation
  | _ => .parameter

/-- What is said about the case. -/
def detail : Failure → String
  | .config cause => cause.detail
  | .allocation cause => cause.detail
  | .noBalancer => "null balancer"
  | .negativeCount name value => s!"{name} must be non-negative, got {value}"
  | .notUtf8 fault => s!"config is not UTF-8: {fault.message}"
  | .notConfig reason => s!"config JSON: {reason}"

/-- A failure in words. -/
def message (f : Failure) : String := f.kind.label ++ ": " ++ f.detail

end Failure

end IqBalance
