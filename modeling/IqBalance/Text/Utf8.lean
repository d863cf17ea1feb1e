/-!
Well-formed UTF-8. `firstFault` goes through bytes and says where the first
fault begins: at bytes that no code point begins with, of which so many belong
together, or at a code point that the end cuts off. A continuation byte after
some lead bytes is bound more narrowly, so that no code point has two
encodings and surrogates have none.
-/

namespace IqBalance.Text

/-- The first place where bytes are not UTF-8. -/
inductive Utf8Fault where
  /-- So many bytes from `index` on begin no code point. -/
  | invalid (length index : Nat)
  /-- A code point that begins at `index` is cut off. -/
  | incomplete (index : Nat)
  deriving DecidableEq, Repr

/-- The bounds of each continuation byte after a lead byte; none of them for a byte that is a code
point by itself. -/
def continuations? (lead : UInt8) : Option (List (UInt8 × UInt8)) :=
  if lead < 0x80 then some []
  else if 0xC2 ≤ lead && lead ≤ 0xDF then some [(0x80, 0xBF)]
  else if lead = 0xE0 then some [(0xA0, 0xBF), (0x80, 0xBF)]
  else if lead = 0xED then some [(0x80, 0x9F), (0x80, 0xBF)]
  else if 0xE1 ≤ lead && lead ≤ 0xEF then some [(0x80, 0xBF), (0x80, 0xBF)]
  else if lead = 0xF0 then some [(0x90, 0xBF), (0x80, 0xBF), (0x80, 0xBF)]
  else if 0xF1 ≤ lead && lead ≤ 0xF3 then some [(0x80, 0xBF), (0x80, 0xBF), (0x80, 0xBF)]
  else if lead = 0xF4 then some [(0x80, 0x8F), (0x80, 0xBF), (0x80, 0xBF)]
  else none

/-- Go through bytes: `start` is where the current code point begins, `length` how many of its
bytes have been read, and `due` the bounds of those that are still due. -/
def faultFrom (start length : Nat) : (due : List (UInt8 × UInt8)) → List UInt8 → Option Utf8Fault
  | [], [] => none
  | _ :: _, [] => some (.incomplete start)
  | (lo, hi) :: due, b :: rest =>
    if lo ≤ b && b ≤ hi then faultFrom start (length + 1) due rest
    else some (.invalid length start)
  | [], b :: rest =>
    match continuations? b with
    | some due => faultFrom (start + length) 1 due rest
    | none => some (.invalid 1 (start + length))

/-- The first place where bytes are not UTF-8, if there is one. -/
def firstFault (bytes : List UInt8) : Option Utf8Fault := faultFrom 0 0 [] bytes

/-- A fault in words. -/
def Utf8Fault.message : Utf8Fault → String
  | .invalid length index => s!"invalid utf-8 sequence of {length} bytes from index {index}"
  | .incomplete index => s!"incomplete utf-8 byte sequence from index {index}"

end IqBalance.Text
