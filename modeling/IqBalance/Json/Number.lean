import IqBalance.Power
import IqBalance.Scalar.Narrow

/-!
Number literals of JSON and their values. A literal is kept as its digits.
Its value is an integer where the digits say so and a 64-bit integer can hold
it; else it is a double: the first digits that fit 64 bits, times or divided
by a power of ten. A literal beyond the range of doubles has no value.
-/

namespace IqBalance.Json

/-- Why bytes that begin like a number are none. -/
inductive NumberFault where
  /-- The text ends where a digit is needed. -/
  | unfinished
  /-- Something else stands where a digit is needed, or a zero leads. -/
  | malformed
  deriving DecidableEq, Repr

/-- A number as it is written. -/
structure Literal where
  negative : Bool
  whole : List Nat
  /-- Digits after the point; empty if there is no point. -/
  fraction : List Nat
  /-- The sign and the digits of the exponent. -/
  exponent : Option (Bool × List Nat)
  deriving DecidableEq, Repr

/-- The value of a decimal digit. -/
def digit? (b : UInt8) : Option Nat := if 48 ≤ b && b ≤ 57 then some (b.toNat - 48) else none

/-- The digits in front, and what follows them. -/
def takeDigits : List UInt8 → List Nat × List UInt8
  | [] => ([], [])
  | b :: rest =>
    match digit? b with
    | some d => let (ds, after) := takeDigits rest; (d :: ds, after)
    | none => ([], b :: rest)

theorem takeDigits_length (bytes : List UInt8) :
    (takeDigits bytes).1.length + (takeDigits bytes).2.length = bytes.length := by
  induction bytes with
  | nil => rfl
  | cons b rest ih =>
    unfold takeDigits
    split
    · simp only [List.length_cons]
      omega
    · simp

/-- At least one digit, and what follows the digits. -/
def someDigits (bytes : List UInt8) : Except NumberFault (List Nat × List UInt8) :=
  match takeDigits bytes with
  | ([], []) => .error .unfinished
  | ([], _ :: _) => .error .malformed
  | (d :: ds, rest) => .ok (d :: ds, rest)

theorem someDigits_length {bytes rest : List UInt8} {digits : List Nat}
    (h : someDigits bytes = .ok (digits, rest)) : rest.length < bytes.length := by
  have hlen := takeDigits_length bytes
  unfold someDigits at h
  split at h
  · cases h
  · cases h
  · rename_i d ds after heq
    cases h
    rw [heq] at hlen
    simp only [List.length_cons] at hlen
    omega

/-- The digits in front of the point: at least one, and no others after a leading zero. -/
def scanWhole (bytes : List UInt8) : Except NumberFault (List Nat × List UInt8) :=
  match someDigits bytes with
  | .ok (0 :: _ :: _, _) => .error .malformed
  | other => other

theorem scanWhole_length {bytes rest : List UInt8} {digits : List Nat}
    (h : scanWhole bytes = .ok (digits, rest)) : rest.length < bytes.length := by
  unfold scanWhole at h
  split at h
  · cases h
  · exact someDigits_length h

/-- The digits after a point, if there is one. -/
def scanFraction : List UInt8 → Except NumberFault (List Nat × List UInt8)
  | 46 :: rest => someDigits rest
  | bytes => .ok ([], bytes)

theorem scanFraction_length {bytes rest : List UInt8} {digits : List Nat}
    (h : scanFraction bytes = .ok (digits, rest)) : rest.length ≤ bytes.length := by
  unfold scanFraction at h
  split at h
  · have := someDigits_length h
    simp only [List.length_cons]
    omega
  · cases h
    exact Nat.le_refl _

/-- A sign in front, `true` for minus, and what follows it. -/
def scanSign : List UInt8 → Bool × List UInt8
  | 43 :: rest => (false, rest)
  | 45 :: rest => (true, rest)
  | bytes => (false, bytes)

theorem scanSign_length (bytes : List UInt8) : (scanSign bytes).2.length ≤ bytes.length := by
  unfold scanSign
  split <;> simp

/-- The exponent, if there is one. -/
def scanExponent : List UInt8 → Except NumberFault (Option (Bool × List Nat) × List UInt8)
  | [] => .ok (none, [])
  | b :: rest =>
    if b = 101 || b = 69 then
      match someDigits (scanSign rest).2 with
      | .ok (digits, after) => .ok (some ((scanSign rest).1, digits), after)
      | .error fault => .error fault
    else .ok (none, b :: rest)

theorem scanExponent_length {bytes rest : List UInt8} {e : Option (Bool × List Nat)}
    (h : scanExponent bytes = .ok (e, rest)) : rest.length ≤ bytes.length := by
  unfold scanExponent at h
  split at h
  · cases h
    exact Nat.le_refl _
  · rename_i b after
    split at h
    · split at h
      · rename_i heq
        have hdigits := someDigits_length heq
        have hsign := scanSign_length after
        cases h
        simp only [List.length_cons]
        omega
      · cases h
    · cases h
      exact Nat.le_refl _

/-- A minus in front, and what follows it. -/
def scanMinus : List UInt8 → Bool × List UInt8
  | 45 :: rest => (true, rest)
  | bytes => (false, bytes)

theorem scanMinus_length (bytes : List UInt8) : (scanMinus bytes).2.length ≤ bytes.length := by
  unfold scanMinus
  split <;> simp

/-- The number literal in front, and what follows it. -/
def scanNumber (bytes : List UInt8) : Except NumberFault (Literal × List UInt8) :=
  match scanWhole (scanMinus bytes).2 with
  | .error fault => .error fault
  | .ok (whole, afterWhole) =>
    match scanFraction afterWhole with
    | .error fault => .error fault
    | .ok (fraction, afterFraction) =>
      match scanExponent afterFraction with
      | .error fault => .error fault
      | .ok (exponent, rest) => .ok (⟨(scanMinus bytes).1, whole, fraction, exponent⟩, rest)

theorem scanNumber_length {bytes rest : List UInt8} {n : Literal}
    (h : scanNumber bytes = .ok (n, rest)) : rest.length < bytes.length := by
  have hminus := scanMinus_length bytes
  unfold scanNumber at h
  split at h
  · cases h
  · rename_i hwhole
    have := scanWhole_length hwhole
    split at h
    · cases h
    · rename_i hfraction
      have := scanFraction_length hfraction
      split at h
      · cases h
      · rename_i hexponent
        have := scanExponent_length hexponent
        cases h
        omega

/-- The value of a literal. -/
inductive Numeral where
  | natural (n : Nat)
  /-- Minus `n`, for `n` from 1 to `2 ^ 63`. -/
  | negative (n : Nat)
  | real (x : Float)

/-- Digits taken into a significand until one more would not fit 64 bits: the significand, and the
digits left over. -/
def takeSignificant : (significand : Nat) → List Nat → Nat × List Nat
  | significand, [] => (significand, [])
  | significand, d :: ds =>
    if significand * 10 + d < 2 ^ 64 then takeSignificant (significand * 10 + d) ds
    else (significand, d :: ds)

/-- Ten to the power `e`, rounded to a double. -/
def powerOfTen (e : Nat) : Float := Float.ofScientific 1 false e

/-- A double divided by a power of ten, in steps that a double can hold. -/
def divPowerOfTen (x : Float) (e : Nat) : Float :=
  if e ≤ 308 then x / powerOfTen e
  else if x == 0 then x
  else divPowerOfTen (x / powerOfTen 308) (e - 308)
termination_by e

/-- A double times a power of ten, if the result is finite. -/
def scalePowerOfTen (x : Float) : (e : Int) → Option Float
  | .negSucc e => some (divPowerOfTen x (e + 1))
  | .ofNat e =>
    if e ≤ 308 then
      let y := x * powerOfTen e
      if y.isInf then none else some y
    else if x == 0 then some x
    else none

/-- The number that digits spell. -/
def digitsValue (digits : List Nat) : Nat := digits.foldl (fun n d => n * 10 + d) 0

/-- The value of an exponent, as a shift of `start`; `none` stands for one whose digits do not fit
32 bits. -/
def exponentFrom (start : Int) : Option (Bool × List Nat) → Option Int
  | none => some start
  | some (negative, digits) =>
    let e := digitsValue digits
    if 2 ^ 31 ≤ e then none else some (if negative then start - e else start + e)

namespace Literal

/-- There is neither a point nor an exponent. -/
def isWhole (n : Literal) : Bool := n.fraction.isEmpty && n.exponent.isNone

/-- The magnitude as a double, from a significand and a shift of its point. -/
def magnitude (n : Literal) (significand : Nat) (shift : Int) : Option Float :=
  match exponentFrom shift n.exponent with
  | some e => scalePowerOfTen (UInt64.ofNat significand).toFloat e
  | none =>
    match n.exponent with
    | some (false, _) => if significand = 0 then some 0 else none
    | _ => some 0

/-- The value, if the literal has one. -/
def value (n : Literal) : Option Numeral :=
  let (significand, left) := takeSignificant 0 n.whole
  if n.isWhole && left.isEmpty then
    some <|
      if !n.negative then .natural significand
      else if significand = 0 || 2 ^ 63 < significand then
        .real (-(UInt64.ofNat significand).toFloat)
      else .negative significand
  else
    let (digits, unread) := takeSignificant significand n.fraction
    let shift : Int := left.length - (n.fraction.length - unread.length)
    (n.magnitude digits shift).map fun x => .real (if n.negative then -x else x)

end Literal

/-- A value in single precision. -/
def Numeral.toFloat32 : Numeral → Float32
  | .natural n => (UInt64.ofNat n).toFloat32
  | .negative n => -(UInt64.ofNat n).toFloat32
  | .real x => narrow x

end IqBalance.Json
