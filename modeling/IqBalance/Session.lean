import IqBalance.Balancer.State
import IqBalance.Config.Json
import IqBalance.Failure
import IqBalance.Journal
import IqBalance.Text.CString

/-!
A host's session. The host names its balancers by handles and does what a
`Request` says; a handle behind which there is no balancer is allowed
everywhere. The text of the last failure is kept until the next request that
may fail in this way: creating a balancer or changing a cadence forgets it at
once and leaves a new one if it fails, and no other request touches it.

What lies outside is a parameter: which buffers the host grants when a balancer
is created, and what the reader of JSON says about a text that it cannot read.
-/

namespace IqBalance

/-- The name of a balancer, as the host chooses it. -/
abbrev Handle := Nat

/-- What the reader of JSON has to say about a text that it cannot read. -/
abbrev Explanation := List UInt8 → String

/-- What a host may ask for. -/
inductive Request where
  /-- A balancer with the standard tuning and this starting correction, in this memory. -/
  | create (handle : Handle) (initial : Correction Float32) (memory : Allocator)
  /-- A balancer with the tuning that a text says, or with the standard one, in this memory. The
  text ends at the first zero byte. -/
  | createFrom (handle : Handle) (text : Option (List UInt8)) (memory : Allocator)
  | destroy (handle : Handle)
  | setOptimalPoint (handle : Handle) (w : Float32)
  | configure (handle : Handle) (buffersToSkip fftIntegration correlationIntegration : Int)
  /-- Correct the first `length` samples of a buffer, if there is one. -/
  | process (handle : Handle) (buffer : Option (Block Float32)) (length : Nat)
  | phase (handle : Handle)
  | amplitude (handle : Handle)
  | state (handle : Handle)
  | lastFailure

/-- What a request gave back. -/
inductive Reply where
  | nothing
  /-- A balancer was created. -/
  | created (success : Bool)
  | destroyed
  | configured (success : Bool)
  | buffer (samples : Option (Block Float32))
  | number (x : Float32)
  | text (content : Option String)

/-- The balancers of a host and the text of its last failure. -/
structure Session where
  balancers : Handle → Option (Balancer Float32)
  lastFailure : Option String

/-- A request's reply, its journal, and the session after it. -/
structure Served where
  session : Session
  reply : Reply
  journal : List LogLine

namespace Session

/-- A session without balancers. -/
def start : Session := ⟨fun _ => none, none⟩

/-- Put a balancer, or none, behind a handle. -/
def put (s : Session) (handle : Handle) (b : Option (Balancer Float32)) : Session :=
  { s with balancers := fun h => if h = handle then b else s.balancers h }

/-- The text kept for a failure in a request. -/
def failureText (context : String) (f : Failure) : String := context ++ ": " ++ f.message

/-- Keep a failure, and note it in the journal. -/
def fail (s : Session) (context : String) (f : Failure) (reply : Reply) : Served :=
  let text := failureText context f
  ⟨{ s with lastFailure := some text }, reply, [⟨.error, text⟩]⟩

/-- What a host says is no tuning, or a tuning. -/
def readConfig (explain : Explanation) : Option (List UInt8) → Except Failure (Config Float32)
  | none => .ok Config.standard
  | some text =>
    let text := text.takeWhile (· ≠ 0)
    match Text.firstFault text with
    | some fault => .error (.notUtf8 fault)
    | none => (Config.ofJson text).mapError fun _ => .notConfig (explain text)

/-- Set a balancer up behind a handle; if that fails there is none behind it. -/
def createWith (s : Session) (handle : Handle) (context : String)
    (config : Except Failure (Config Float32)) (memory : Allocator) : Except Fault Served :=
  let s := { s.put handle none with lastFailure := none }
  match config with
  | .error f => .ok (s.fail context f (.created false))
  | .ok config =>
    match Balancer.create memory Tables.single config with
    | .ok b => .ok ⟨s.put handle (some b), .created true, [.created b]⟩
    | .error (.invalid cause) => .ok (s.fail context (.config cause) (.created false))
    | .error (.allocation cause) => .ok (s.fail context (.allocation cause) (.created false))
    | .error (.fault cause) => .error cause

/-- A count that the host gave as a signed number. -/
def readCount (name : String) (value : Int) : Except Failure Nat :=
  if 0 ≤ value then .ok value.toNat else .error (.negativeCount name value)

/-- A cadence that the host gave as signed numbers. -/
def readCadence (buffersToSkip fftIntegration correlationIntegration : Int) :
    Except Failure Cadence := do
  let buffersToSkip ← readCount "buffers_to_skip" buffersToSkip
  let fftIntegration ← readCount "fft_integration" fftIntegration
  let correlationIntegration ← readCount "correlation_integration" correlationIntegration
  return { buffersToSkip, fftIntegration, correlationIntegration }

/-- Serve one request. -/
def serve (explain : Explanation) (s : Session) : Request → Except Fault Served
  | .create handle initial memory =>
    s.createWith handle "iqb_balancer_create" (.ok (.startingAt initial)) memory
  | .createFrom handle text memory =>
    s.createWith handle "iqb_balancer_create_with_config" (readConfig explain text) memory
  | .destroy handle => .ok ⟨s.put handle none, .destroyed, []⟩
  | .setOptimalPoint handle w =>
    match s.balancers handle with
    | none => .ok ⟨s, .nothing, []⟩
    | some b =>
      let b := b.setOptimalPoint w
      .ok ⟨s.put handle (some b), .nothing, [.retuned w b]⟩
  | .configure handle buffersToSkip fftIntegration correlationIntegration =>
    let s := { s with lastFailure := none }
    let context := "iqb_balancer_configure"
    match s.balancers handle with
    | none => .ok (s.fail context .noBalancer (.configured false))
    | some b =>
      match readCadence buffersToSkip fftIntegration correlationIntegration with
      | .error f => .ok (s.fail context f (.configured false))
      | .ok cadence =>
        match b.configure cadence with
        | .ok b => .ok ⟨s.put handle (some b), .configured true, []⟩
        | .error cause => .ok (s.fail context (.config cause) (.configured false))
  | .process handle buffer length =>
    match buffer, s.balancers handle with
    | some samples, some b =>
      if length = 0 then .ok ⟨s, .buffer buffer, []⟩
      else do
        let done ← b.process (samples.take length)
        return ⟨s.put handle (some done.balancer),
          .buffer (some (done.block ++ samples.drop length)),
          (LogLine.ofOutcome? done.outcome).toList⟩
    | _, _ => .ok ⟨s, .buffer buffer, []⟩
  | .phase handle =>
    .ok ⟨s, .number ((s.balancers handle).elim 0 (·.ramp.target.phase)), []⟩
  | .amplitude handle =>
    .ok ⟨s, .number ((s.balancers handle).elim 0 (·.ramp.target.amplitude)), []⟩
  | .state handle =>
    .ok ⟨s, .text ((s.balancers handle).bind fun b => Text.handedOver b.state.toJson.render), []⟩
  | .lastFailure => .ok ⟨s, .text (s.lastFailure.bind Text.handedOver), []⟩

end Session

end IqBalance
