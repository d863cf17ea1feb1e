import IqBalance.Power

/-!
The shortest decimal that reads back. A positive number `m * 2 ^ q` is what
every decimal between the midpoints to its two neighbours is read as, the
midpoints themselves if `m` is even. `shortest` goes through the decimal grids
from coarse to fine and takes the first that has a point in this interval; of
two such points it takes the nearer one.
-/

namespace IqBalance.Text

/-- The number `digits * 10 ^ exponent`. -/
structure Decimal where
  digits : Nat
  exponent : Int
  deriving DecidableEq, Repr

/-- Which of two equally near decimals is taken. -/
inductive Tie where
  | up
  | even
  deriving DecidableEq, Repr

/-- The interval of reals that are read as one number, and that number, over a common denominator:
`low / den ≤ value / den ≤ high / den`. -/
structure RoundingInterval where
  value : Nat
  low : Nat
  high : Nat
  den : Nat
  /-- The ends belong to the interval. -/
  closed : Bool
  deriving DecidableEq, Repr

namespace RoundingInterval

/-- The interval of `m * 2 ^ q`. -/
def of (m : Nat) (q : Int) (narrowBelow : Bool) : RoundingInterval :=
  let up := 2 ^ q.toNat
  { value := 4 * m * up
    low := (4 * m - if narrowBelow then 1 else 2) * up
    high := (4 * m + 2) * up
    den := 4 * 2 ^ (-q).toNat
    closed := m % 2 == 0 }

/-- The same numbers in units of `10 ^ p`. -/
def inUnitsOf (i : RoundingInterval) (p : Int) : RoundingInterval :=
  let up := 10 ^ (-p).toNat
  { i with
    value := i.value * up
    low := i.low * up
    high := i.high * up
    den := i.den * 10 ^ p.toNat }

/-- A whole number of units lies in the interval. -/
def holds (i : RoundingInterval) (c : Nat) : Bool :=
  let x := c * i.den
  if i.closed then i.low ≤ x && x ≤ i.high else i.low < x && x < i.high

/-- The whole number of units in the interval that is nearest to the value, if there is one. -/
def nearest? (i : RoundingInterval) (tie : Tie) : Option Nat :=
  let c := i.value / i.den
  match i.holds c, i.holds (c + 1) with
  | true, true =>
    let below := i.value - c * i.den
    let above := (c + 1) * i.den - i.value
    if below < above then some c
    else if above < below then some (c + 1)
    else match tie with
      | .up => some (c + 1)
      | .even => some (c + c % 2)
  | true, false => some c
  | false, true => some (c + 1)
  | false, false => none

/-- The first grid that meets the interval, from `10 ^ p` downward. -/
def search (i : RoundingInterval) (tie : Tie) : (steps : Nat) → (p : Int) → Decimal
  | 0, p => ⟨0, p⟩
  | steps + 1, p =>
    match (i.inUnitsOf p).nearest? tie with
    | some c => ⟨c, p⟩
    | none => i.search tie steps (p - 1)

end RoundingInterval

/-- The shortest decimal that reads back as `m * 2 ^ q`, a positive single-precision number. The
grids run from above the largest to below the spacing of the smallest such number. -/
def shortest (tie : Tie) (m : Nat) (q : Int) (narrowBelow : Bool) : Decimal :=
  (RoundingInterval.of m q narrowBelow).search tie 100 39

end IqBalance.Text
