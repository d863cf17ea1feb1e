import IqBalance.Text.Binary32
import IqBalance.Text.Shortest

/-!
How a number is written with its shortest digits. A `NumberForm` holds the
decisions of one kind of text; the three kinds in use are `plain` for
messages, `detailed` for the fields of a record in a message, and `json`.
-/

namespace IqBalance.Text

/-- The decisions of one kind of number text. -/
structure NumberForm where
  /-- Of two equally near shortest decimals, which one is taken. -/
  tie : Tie
  /-- The decimal exponents written without an exponent; all of them if there is no range. -/
  positional : Option (Int × Int)
  /-- What follows a whole number that is written without an exponent. -/
  wholeEnd : String
  /-- What stands between `e` and the digits of an exponent that is not negative. -/
  exponentPlus : String
  notANumber : String
  infinite : String
  negativeInfinite : String

namespace NumberForm

/-- Numbers in messages: never an exponent, and no point after a whole number. -/
def plain : NumberForm where
  tie := .up
  positional := none
  wholeEnd := ""
  exponentPlus := ""
  notANumber := "NaN"
  infinite := "inf"
  negativeInfinite := "-inf"

/-- Numbers in the fields of a record: an exponent below `1e-4` and from `1e16` on. -/
def detailed : NumberForm :=
  { plain with positional := some (-4, 15), wholeEnd := ".0" }

/-- Numbers in JSON: an exponent, with its sign, below `1e-6` and from `1e13` on; what is not
finite is `null`. -/
def json : NumberForm where
  tie := .even
  positional := some (-6, 12)
  wholeEnd := ".0"
  exponentPlus := "+"
  notANumber := "null"
  infinite := "null"
  negativeInfinite := "null"

end NumberForm

/-- `n` zeros. -/
def zeros (n : Nat) : String := String.ofList (List.replicate n '0')

/-- A decimal written with a point where it belongs, or with `wholeEnd` if it is whole. -/
def positionalText (wholeEnd : String) (digits : String) (exponent : Int) : String :=
  if 0 ≤ exponent then digits ++ zeros exponent.toNat ++ wholeEnd
  else
    let places := (-exponent).toNat
    let count := digits.length
    if places < count then
      String.ofList (digits.toList.take (count - places)) ++ "." ++
        String.ofList (digits.toList.drop (count - places))
    else "0." ++ zeros (places - count) ++ digits

/-- One digit, the others after a point, and an exponent. -/
def scientificText (exponentPlus : String) (digits : String) (exponent : Int) : String :=
  let whole := String.ofList (digits.toList.take 1)
  let rest := String.ofList (digits.toList.drop 1)
  let mantissa := if rest.isEmpty then whole else whole ++ "." ++ rest
  mantissa ++ "e" ++ (if 0 ≤ exponent then exponentPlus else "") ++ toString exponent

/-- Write a decimal. -/
def NumberForm.decimal (form : NumberForm) (d : Decimal) : String :=
  let digits := toString d.digits
  let leading := d.exponent + digits.length - 1
  let isPositional := match form.positional with
    | none => true
    | some (least, greatest) => decide (least ≤ leading) && decide (leading ≤ greatest)
  if isPositional then positionalText form.wholeEnd digits d.exponent
  else scientificText form.exponentPlus digits leading

/-- Write a single-precision number. -/
def NumberForm.write (form : NumberForm) (x : Float32) : String :=
  match Value32.ofFloat32 x with
  | .notANumber => form.notANumber
  | .infinite false => form.infinite
  | .infinite true => form.negativeInfinite
  | .finite negative m q narrowBelow =>
    (if negative then "-" else "") ++
      if m = 0 then "0" ++ form.wholeEnd
      else form.decimal (shortest form.tie m q narrowBelow)

end IqBalance.Text
