import IqBalance.Correction.Ramp
import IqBalance.DcTracker
import IqBalance.Json.Reader
import IqBalance.Json.Value
import IqBalance.Scalar.Binary32

/-!
The two stages that keep a state over a stream, as JSON: the ramp and the
tracker of the mean. All members are needed.
-/

namespace IqBalance

open Json

namespace Ramp

/-- A ramp as it is written. -/
def toJson (r : Ramp Float32) : Value :=
  .record
    [ ("phase", .real r.target.phase),
      ("last_phase", .real r.applied.phase),
      ("amplitude", .real r.target.amplitude),
      ("last_amplitude", .real r.applied.amplitude) ]

/-- How a ramp is read. -/
def shape : Shape (Ramp Float32) where
  members :=
    [ .of "phase" readFloat32 fun r x => { r with target.phase := x },
      .of "last_phase" readFloat32 fun r x => { r with applied.phase := x },
      .of "amplitude" readFloat32 fun r x => { r with target.amplitude := x },
      .of "last_amplitude" readFloat32 fun r x => { r with applied.amplitude := x } ]
  start := .atRest ⟨0, 0⟩
  complete := true

/-- Read a ramp from JSON text. -/
def ofJson (text : List UInt8) : Except Rejection (Ramp Float32) := parse shape.read text

end Ramp

namespace DcTracker

/-- A tracker as it is written. -/
def toJson (t : DcTracker Float32) : Value :=
  .record [("iavg", .real t.mean.re), ("qavg", .real t.mean.im), ("k", .real t.rate)]

/-- How a tracker is read. -/
def shape : Shape (DcTracker Float32) where
  members :=
    [ .of "iavg" readFloat32 fun t x => { t with mean.re := x },
      .of "qavg" readFloat32 fun t x => { t with mean.im := x },
      .of "k" readFloat32 fun t rate => { t with rate } ]
  start := .start 0
  complete := true

/-- Read a tracker from JSON text. -/
def ofJson (text : List UInt8) : Except Rejection (DcTracker Float32) := parse shape.read text

end DcTracker

end IqBalance
