import IqBalance.Balancer
import IqBalance.Scalar.Binary32
import IqBalance.Text.FixedPlaces

/-!
The journal: what an engine has to say about its work, line by line. Each
line is rendered from a value that the engine returns, so nothing is logged
that cannot be seen otherwise.
-/

namespace IqBalance

open Text (NumberForm fixed scientific)

/-- How much a line matters. -/
inductive LogLevel where
  | trace
  | debug
  | warn
  | error
  deriving DecidableEq, Repr

/-- The name of a level. -/
def LogLevel.label : LogLevel → String
  | .trace => "TRACE"
  | .debug => "DEBUG"
  | .warn => "WARN"
  | .error => "ERROR"

/-- One line. -/
structure LogLine where
  level : LogLevel
  text : String
  deriving DecidableEq, Repr

namespace LogLine

/-- The level and the text. -/
def render (line : LogLine) : String := line.level.label ++ " " ++ line.text

/-- One part of a complex number, its sign apart. -/
def partText (x : Float32) : String := NumberForm.plain.write (if x < 0 then -x else x)

/-- A complex number in a message. -/
def sampleText (s : Sample Float32) : String :=
  (if s.re < 0 then "-" else "") ++ partText s.re ++ (if s.im < 0 then "-" else "+") ++
    partText s.im ++ "i"

/-- An engine has been set up. -/
def created (b : Balancer Float32) : LogLine where
  level := .debug
  text :=
    s!"iq balancer: {b.config.fftBins} bins, skip {b.config.cadence.buffersToSkip}, " ++
      s!"fft x{b.config.cadence.fftIntegration}, corr x{b.config.cadence.correlationIntegration}"

/-- An engine that has been set to the frequency `w`. -/
def retuned (w : Float32) (b : Balancer Float32) : LogLine where
  level := .debug
  text := s!"optimal point {NumberForm.plain.write (foldFrequency w)} -> bin {b.optimalBin}"

/-- One axis of an estimate. -/
def axisText (published raw mu step : Float32) : String :=
  s!"{fixed 6 published} (raw {fixed 6 raw}, mu {fixed 3 mu}, step {scientific 2 step})"

/-- The line about an outcome, for those that have one. -/
def ofOutcome? : Outcome Float32 → Option LogLine
  | .idle | .passed => none
  | .noWindow => some ⟨.trace, "no full FFT window this cycle, estimate skipped"⟩
  | .utilityNotFinite u v =>
    some ⟨.warn,
      s!"non-finite utility ({sampleText u}, {sampleText v}), estimate discarded"⟩
  | .candidateNotFinite => some ⟨.warn, "non-finite candidate, estimate discarded"⟩
  | .published e phaseStep amplitudeStep =>
    some ⟨.debug,
      "estimate: phase " ++ axisText e.published.phase e.raw.phase e.phaseMu phaseStep ++
        " amplitude " ++
        axisText e.published.amplitude e.raw.amplitude e.amplitudeMu amplitudeStep ++
        s!" depth {e.lookbackDepth}"⟩

end LogLine

end IqBalance
