import IqBalance.Text.NumberForm

/-!
Numbers with a fixed count of digits after the point. The value is rounded as
it is, not its shortest text; `roundDiv` is the one rounding, to nearest with
a tie to the even neighbour.
-/

namespace IqBalance.Text

/-- `num / den` rounded to the nearest integer, a tie to the even one. -/
def roundDiv (num den : Nat) : Nat :=
  let quotient := num / den
  let twiceRest := 2 * (num % den)
  if twiceRest < den then quotient
  else if den < twiceRest then quotient + 1
  else quotient + quotient % 2

/-- `m * 2 ^ q` in units of `10 ^ p`, rounded. -/
def roundToUnit (m : Nat) (q p : Int) : Nat :=
  roundDiv (m * 2 ^ q.toNat * 10 ^ (-p).toNat) (2 ^ (-q).toNat * 10 ^ p.toNat)

/-- The digits of `n`, with zeros in front up to `width`. -/
def paddedDigits (n width : Nat) : String :=
  let digits := toString n
  zeros (width - digits.length) ++ digits

/-- The sign and the text of a finite magnitude, or the word for what is not finite. -/
def withFinite (x : Float32) (text : (m : Nat) → (q : Int) → String) : String :=
  match Value32.ofFloat32 x with
  | .notANumber => NumberForm.plain.notANumber
  | .infinite false => NumberForm.plain.infinite
  | .infinite true => NumberForm.plain.negativeInfinite
  | .finite negative m q _ => (if negative then "-" else "") ++ text m q

/-- A number with this many digits after the point. -/
def fixed (places : Nat) (x : Float32) : String :=
  withFinite x fun m q =>
    positionalText "" (paddedDigits (roundToUnit m q (-places)) (places + 1)) (-places)

/-- The decimal exponent of a positive `m * 2 ^ q`: the first `p`, downward, whose power of ten
does not exceed it. -/
def leadingExponent (m : Nat) (q : Int) : (steps : Nat) → (p : Int) → Int
  | 0, p => p
  | steps + 1, p =>
    if 2 ^ (-q).toNat * 10 ^ p.toNat ≤ m * 2 ^ q.toNat * 10 ^ (-p).toNat then p
    else leadingExponent m q steps (p - 1)

/-- A number as one digit, this many digits after the point, and an exponent. -/
def scientific (places : Nat) (x : Float32) : String :=
  withFinite x fun m q =>
    if m = 0 then scientificText "" (zeros (places + 1)) 0
    else
      let p := leadingExponent m q 100 39
      let rounded := roundToUnit m q (p - places)
      if rounded < 10 ^ (places + 1) then scientificText "" (toString rounded) p
      else scientificText "" (toString (rounded / 10)) (p + 1)

end IqBalance.Text
