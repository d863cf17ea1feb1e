/-!
The arithmetic in which the tables are worked out. `Elementary` names the few
functions their formulas need. In double precision these are computed here
from the four operations alone: an argument is reduced by a multiple of a
quarter turn, or of the logarithm of two, that is split into parts short
enough to be multiplied exactly, and the rest goes through a nested Taylor
sum. Results are within a few units in the last place, which is well below
what is left after rounding to single precision.
-/

namespace IqBalance.Spectrum

/-- Numbers with the functions that the table formulas need. -/
class Elementary (ω : Type) extends Zero ω, Add ω, Mul ω, Div ω, Neg ω, OfScientific ω where
  /-- The number nearest to a count. -/
  ofCount : Nat → ω
  /-- Half a turn. -/
  pi : ω
  /-- The cosine of a non-negative angle. -/
  cos : ω → ω
  /-- The sine of a non-negative angle. -/
  sin : ω → ω
  /-- The exponential of minus a non-negative number. -/
  expNeg : ω → ω

namespace Binary64

/-- `1 - z / (j (j + 1)) * (1 - z / ((j + 2) (j + 3)) * (⋯))`, with `n` terms after the first. -/
def alternating (z : Float) : Nat → Nat → Float
  | 0, _ => 1
  | n + 1, j => 1 - z / Float.ofNat (j * (j + 1)) * alternating z n (j + 2)

/-- The sine on `[-π/4, π/4]`. -/
def sinSmall (r : Float) : Float := r * alternating (r * r) 9 2

/-- The cosine on `[-π/4, π/4]`. -/
def cosSmall (r : Float) : Float := alternating (r * r) 9 1

/-- The number of quarter turns nearest to a non-negative angle, and the angle less these. The
quarter turn is the sum of three parts, the first two short enough to be multiplied exactly. -/
def quarterTurns (x : Float) : Nat × Float :=
  let turns := (x * 0.6366197723675814 + 0.5).toUInt64
  let t := turns.toFloat
  (turns.toNat,
    x - t * Float.ofBits 0x3FF921FB54400000 - t * Float.ofBits 0x3DD0B4611A600000
      - t * Float.ofBits 0x3BA3198A2E037073)

/-- The cosine of a non-negative angle. -/
def cos (x : Float) : Float :=
  let (turns, r) := quarterTurns x
  match turns % 4 with
  | 0 => cosSmall r
  | 1 => -sinSmall r
  | 2 => -cosSmall r
  | _ => sinSmall r

/-- The sine of a non-negative angle. -/
def sin (x : Float) : Float :=
  let (turns, r) := quarterTurns x
  match turns % 4 with
  | 0 => sinSmall r
  | 1 => cosSmall r
  | 2 => -sinSmall r
  | _ => -cosSmall r

/-- `1 + r / j * (1 + r / (j + 1) * (⋯))`, with `n` terms after the first. -/
def exponentialSum (r : Float) : Nat → Nat → Float
  | 0, _ => 1
  | n + 1, j => 1 + r / Float.ofNat j * exponentialSum r n (j + 1)

/-- The exponential of `-y` for `y ≥ 0`; zero where the result lies below the normal range. -/
def expNeg (y : Float) : Float :=
  let halvings := (y * 1.4426950408889634 + 0.5).toUInt64
  let h := halvings.toFloat
  let r := h * Float.ofBits 0x3FE62E42FEE00000 - y + h * Float.ofBits 0x3DEA39EF35793C76
  if halvings ≤ 1022 then exponentialSum r 16 1 * Float.ofBits ((1023 - halvings) <<< 52) else 0

end Binary64

instance : Elementary Float where
  zero := 0
  ofCount := Float.ofNat
  pi := 3.141592653589793
  cos := Binary64.cos
  sin := Binary64.sin
  expNeg := Binary64.expNeg

end IqBalance.Spectrum
