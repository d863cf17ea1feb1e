import IqBalance.Power

/-!
Rounding a double-precision number to single precision, worked out on the
binary fields with exact integers: `roundShift` divides by a power of two and
rounds to nearest, a tie going to the even neighbour, and `narrow` applies it
to the significand. A carry out of the significand moves the exponent up by
one, which is what the addition of the fields does.
-/

namespace IqBalance

/-- `m / 2 ^ k` rounded to the nearest integer, a tie to the even one. -/
def roundShift (m k : Nat) : Nat :=
  let quotient := m >>> k
  let twiceRest := 2 * (m - quotient <<< k)
  if twiceRest < 1 <<< k then quotient
  else if 1 <<< k < twiceRest then quotient + 1
  else quotient + quotient % 2

/-- The magnitude field of the single-precision number nearest to
`significand * 2 ^ (max exponent 1 - 1075)`, a finite double with that biased exponent. -/
def narrowMagnitude (exponent significand : Nat) : Nat :=
  if exponent ≤ 896 then roundShift significand (926 - max exponent 1)
  else min ((exponent - 897) * 2 ^ 23 + roundShift significand 29) (255 * 2 ^ 23)

/-- The single-precision number nearest to `x`, a tie going to the even significand. -/
def narrow (x : Float) : Float32 :=
  let bits := x.toBits.toNat
  let sign := bits / 2 ^ 63 * 2 ^ 31
  let exponent := bits / 2 ^ 52 % 2 ^ 11
  let fraction := bits % 2 ^ 52
  let magnitude :=
    if exponent = 2047 then 255 * 2 ^ 23 + (if fraction = 0 then 0 else 2 ^ 22)
    else narrowMagnitude exponent (if exponent = 0 then fraction else 2 ^ 52 + fraction)
  Float32.ofBits (UInt32.ofNat (sign + magnitude))

end IqBalance
