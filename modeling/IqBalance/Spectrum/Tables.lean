import IqBalance.FftSize
import IqBalance.Scalar.Narrow
import IqBalance.Spectrum.Elementary
import IqBalance.Spectrum.Radix2

/-!
The tables of one transform length: the taper laid over a window, the boost
weights by distance from the favoured bin, and the twiddle factors. The
formulas are given once for every `Elementary` arithmetic; `Tables.build`
works them out and stores each entry through a rounding.
-/

namespace IqBalance

open Spectrum (Elementary)

namespace Spectrum

variable {ω : Type} [Elementary ω]

/-- Coefficients of the seven-term cosine sum. -/
def taperCoefficients : List ω :=
  [0.27105140069342, -0.43329793923448, 0.21812299954311, -0.06592544638803, 0.01081174209837,
    -0.00077658482522, 0.00001388721735]

/-- Taper weight of sample `i` in a window of `n`. -/
def taperAt (n i : Nat) : ω :=
  let x : ω := 2.0 * Elementary.pi * Elementary.ofCount i / Elementary.ofCount (n - 1)
  (taperCoefficients.zipIdx.map fun (c, k) => c * Elementary.cos (Elementary.ofCount k * x)).foldl
    (· + ·) 0

/-- The floor of the boost weights, relative to their peak. -/
def boostFloor : ω := 1.0 / 100000.0

/-- The width of the boost is the number of bins over this. -/
def boostWidthDivisor : Nat := 25

/-- Boost weight at a distance, for `n` bins. -/
def boostAt (n distance : Nat) : ω :=
  let x : ω := Elementary.ofCount distance / Elementary.ofCount (n / boostWidthDivisor)
  boostFloor + Elementary.expNeg (x * x)

/-- The angle of twiddle `k`: `k` parts of a full turn in `n`. -/
def twiddleAngle (n k : Nat) : ω :=
  2.0 * Elementary.pi * Elementary.ofCount k / Elementary.ofCount n

/-- Twiddle `k` of `n`: the unit number at minus its angle. -/
def twiddleAt (n k : Nat) : Sample ω :=
  ⟨Elementary.cos (twiddleAngle n k), -Elementary.sin (twiddleAngle n k)⟩

end Spectrum

/-- The tables of one transform length. -/
structure Tables (α : Type) (size : FftSize) where
  taper : Vector α size.bins
  boost : Vector α size.bins
  twiddles : Vector (Sample α) (2 ^ (size.log2 - 1))

namespace Tables

/-- Work the tables out in `ω` and store them in `α`. -/
def build {ω α : Type} [Elementary ω] (store : ω → α) (size : FftSize) : Tables α size where
  taper := Vector.ofFn fun i => store (Spectrum.taperAt size.bins i)
  boost := Vector.ofFn fun d => store (Spectrum.boostAt size.bins d)
  twiddles := Vector.ofFn fun k =>
    let w : Sample ω := Spectrum.twiddleAt size.bins k
    ⟨store w.re, store w.im⟩

/-- The single-precision tables, worked out in double precision. -/
def single (size : FftSize) : Tables Float32 size := build narrow size

variable {α : Type} [Scalar α] {size : FftSize}

/-- Boost weight of a bin `distance` away from the favoured one. -/
def boostWeight (t : Tables α size) (distance : Nat) : Except Fault α :=
  if h : distance < size.bins then .ok t.boost[distance]
  else .error (.boostDistance distance size.bins)

/-- The taper laid over a window. -/
def applyTaper (t : Tables α size) (window : Vector (Sample α) size.bins) :
    Vector (Sample α) size.bins :=
  Vector.zipWith Sample.scale window t.taper

/-- The centred transform of a window. -/
def transform (t : Tables α size) (window : Vector (Sample α) size.bins) :
    Vector (Sample α) size.bins :=
  Spectrum.transform (m := size.log2) t.twiddles window

/-- The centred spectrum of a tapered window. -/
def spectrum (t : Tables α size) (window : Vector (Sample α) size.bins) :
    Vector (Sample α) size.bins :=
  t.transform (t.applyTaper window)

end Tables

end IqBalance
