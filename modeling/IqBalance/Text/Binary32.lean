import IqBalance.Power

/-!
What a single-precision number is, read off its bits: not a number, an
infinity, or a sign and a magnitude `m * 2 ^ q` with `m` below `2 ^ 24`.
-/

namespace IqBalance.Text

/-- The value of a single-precision number. -/
inductive Value32 where
  | notANumber
  | infinite (negative : Bool)
  /-- The magnitude is `m * 2 ^ q`; `narrowBelow` holds when the next number below is only half as
  far as the next one above. -/
  | finite (negative : Bool) (m : Nat) (q : Int) (narrowBelow : Bool)
  deriving DecidableEq, Repr

/-- Read a number off its bits. -/
def Value32.ofFloat32 (x : Float32) : Value32 :=
  let bits := x.toBits.toNat
  let negative := bits / 2 ^ 31 == 1
  let exponent : Nat := bits / 2 ^ 23 % 2 ^ 8
  let fraction := bits % 2 ^ 23
  if exponent = 255 then
    if fraction = 0 then .infinite negative else .notANumber
  else if exponent = 0 then .finite negative fraction (-149) false
  else .finite negative (2 ^ 23 + fraction) ((exponent : Int) - 150) (fraction == 0 && exponent != 1)

end IqBalance.Text
