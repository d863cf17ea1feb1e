import IqBalance.Json.Number

/-!
JSON text as tokens. `tokens` reads bytes from left to right and puts a token
that says what is wrong where something is wrong; nothing after it is read. So
a reader that goes over the tokens in order meets the first problem first,
whether it is in the spelling or in the meaning.

Strings keep their escapes, since what an escape may say depends on the use:
`StringBody.decode` gives the bytes of a string that has to be text.
-/

namespace IqBalance.Json

/-- Why a JSON text is rejected. -/
inductive Rejection where
  /-- It is no JSON. -/
  | malformed
  /-- It is JSON, of another shape than wanted. -/
  | mismatched
  /-- It stops too early. -/
  | unfinished
  deriving DecidableEq, Repr

/-- What a number that is none leads to. -/
def NumberFault.rejection : NumberFault → Rejection
  | .unfinished => .unfinished
  | .malformed => .malformed

/-- One unit of a string: a byte, or the code unit that an escape names. -/
inductive TextUnit where
  | byte (b : UInt8)
  | code (u : Nat)
  deriving DecidableEq, Repr

/-- How a string ends. -/
inductive StringEnd where
  | closed
  | unfinished
  /-- At a control character or at an escape that is none. -/
  | malformed
  deriving DecidableEq, Repr

/-- A string as far as it can be read. -/
structure StringBody where
  units : List TextUnit
  ending : StringEnd
  deriving DecidableEq, Repr

/-- The parts of a JSON text. -/
inductive Token where
  | openBrace
  | closeBrace
  | openBracket
  | closeBracket
  | comma
  | colon
  /-- `null`, `true` or `false`. -/
  | word
  | number (n : Literal)
  | string (s : StringBody)
  /-- Bytes that begin like a word and are none. -/
  | brokenWord (fault : Rejection)
  | brokenNumber (fault : NumberFault)
  /-- A byte that begins nothing. -/
  | stray
  deriving DecidableEq, Repr

/-- Space, tab, line feed, carriage return. -/
def isBlank (b : UInt8) : Bool := b = 32 || b = 9 || b = 10 || b = 13

/-- The value of a hexadecimal digit. -/
def hexDigit? (b : UInt8) : Option Nat :=
  if 48 ≤ b && b ≤ 57 then some (b.toNat - 48)
  else if 97 ≤ b && b ≤ 102 then some (b.toNat - 87)
  else if 65 ≤ b && b ≤ 70 then some (b.toNat - 55)
  else none

/-- The number that four hexadecimal digits spell. -/
def hexCode? (a b c d : UInt8) : Option Nat := do
  return (((← hexDigit? a) * 16 + (← hexDigit? b)) * 16 + (← hexDigit? c)) * 16 + (← hexDigit? d)

/-- The byte that a one-letter escape stands for. -/
def shortEscape? (b : UInt8) : Option UInt8 :=
  if b = 34 || b = 92 || b = 47 then some b
  else if b = 98 then some 8
  else if b = 102 then some 12
  else if b = 110 then some 10
  else if b = 114 then some 13
  else if b = 116 then some 9
  else none

/-- A string that breaks off here. -/
def StringBody.stop (ending : StringEnd) : StringBody × List UInt8 := (⟨[], ending⟩, [])

/-- A string with one more unit in front. -/
def StringBody.push (u : TextUnit) (s : StringBody × List UInt8) : StringBody × List UInt8 :=
  ({ s.1 with units := u :: s.1.units }, s.2)

/-- The string whose opening quote has been read, and what follows its closing quote. -/
def scanString : List UInt8 → StringBody × List UInt8
  | [] => StringBody.stop .unfinished
  | 34 :: rest => (⟨[], .closed⟩, rest)
  | 92 :: 117 :: a :: b :: c :: d :: rest =>
    match hexCode? a b c d with
    | some u => StringBody.push (.code u) (scanString rest)
    | none => StringBody.stop .malformed
  | 92 :: e :: rest =>
    match shortEscape? e with
    | some b => StringBody.push (.byte b) (scanString rest)
    | none => StringBody.stop (if e = 117 then .unfinished else .malformed)
  | b :: rest =>
    if b = 92 then StringBody.stop .unfinished
    else if b < 32 then StringBody.stop .malformed
    else StringBody.push (.byte b) (scanString rest)

theorem scanString_length (bytes : List UInt8) : (scanString bytes).2.length ≤ bytes.length := by
  fun_induction scanString bytes <;>
    simp_all [StringBody.stop, StringBody.push] <;> omega

/-- The word whose other letters are given, and what follows it. -/
def scanWord : (letters : List UInt8) → List UInt8 → Token × List UInt8
  | [], bytes => (.word, bytes)
  | _ :: _, [] => (.brokenWord .unfinished, [])
  | l :: letters, b :: bytes =>
    if b = l then scanWord letters bytes else (.brokenWord .malformed, [])

theorem scanWord_length (letters bytes : List UInt8) :
    (scanWord letters bytes).2.length ≤ bytes.length := by
  fun_induction scanWord letters bytes <;> simp_all
  omega

/-- The token that is this byte alone. -/
def punctuation? (b : UInt8) : Option Token :=
  if b = 123 then some .openBrace
  else if b = 125 then some .closeBrace
  else if b = 91 then some .openBracket
  else if b = 93 then some .closeBracket
  else if b = 44 then some .comma
  else if b = 58 then some .colon
  else none

/-- The other letters of the word that begins with this one. -/
def wordTail? (b : UInt8) : Option (List UInt8) :=
  if b = 110 then some [117, 108, 108]
  else if b = 116 then some [114, 117, 101]
  else if b = 102 then some [97, 108, 115, 101]
  else none

/-- The number that begins with this byte, and what follows it. -/
def scanNumberToken (b : UInt8) (rest : List UInt8) : Token × List UInt8 :=
  match scanNumber (b :: rest) with
  | .ok (n, after) => (.number n, after)
  | .error fault => (.brokenNumber fault, [])

theorem scanNumberToken_length (b : UInt8) (rest : List UInt8) :
    (scanNumberToken b rest).2.length ≤ rest.length := by
  unfold scanNumberToken
  split
  · rename_i h
    have := scanNumber_length h
    simp only [List.length_cons] at this
    exact Nat.le_of_lt_succ this
  · exact Nat.zero_le _

/-- The token that begins with this byte, and what follows it. -/
def scanToken (b : UInt8) (rest : List UInt8) : Token × List UInt8 :=
  match punctuation? b, wordTail? b with
  | some t, _ => (t, rest)
  | none, some letters => scanWord letters rest
  | none, none =>
    if b = 34 then (.string (scanString rest).1, (scanString rest).2)
    else if b = 45 || (digit? b).isSome then scanNumberToken b rest
    else (.stray, [])

theorem scanToken_length (b : UInt8) (rest : List UInt8) :
    (scanToken b rest).2.length ≤ rest.length := by
  unfold scanToken
  split
  · exact Nat.le_refl _
  · exact scanWord_length _ _
  · split
    · exact scanString_length rest
    · split
      · exact scanNumberToken_length b rest
      · exact Nat.zero_le _

/-- The tokens of a text. -/
def tokens : List UInt8 → List Token
  | [] => []
  | b :: rest =>
    if isBlank b then tokens rest
    else
      let next := scanToken b rest
      next.1 :: tokens next.2
termination_by bytes => bytes.length
decreasing_by
  · simp
  · have := scanToken_length b rest
    simp only [List.length_cons]
    omega

/-- The bytes of a code point below `2 ^ 16`, in UTF-8. -/
def encodeUnit (u : Nat) : List UInt8 :=
  if u < 0x80 then [UInt8.ofNat u]
  else if u < 0x800 then [UInt8.ofNat (0xC0 + u / 64), UInt8.ofNat (0x80 + u % 64)]
  else [UInt8.ofNat (0xE0 + u / 4096), UInt8.ofNat (0x80 + u / 64 % 64),
    UInt8.ofNat (0x80 + u % 64)]

/-- The bytes of the code point that a surrogate pair names, in UTF-8. -/
def encodePair (high low : Nat) : List UInt8 :=
  let c := (high - 0xD800) * 0x400 + (low - 0xDC00) + 0x10000
  [UInt8.ofNat (0xF0 + c / 262144), UInt8.ofNat (0x80 + c / 4096 % 64),
    UInt8.ofNat (0x80 + c / 64 % 64), UInt8.ofNat (0x80 + c % 64)]

namespace StringEnd

/-- What a string with this ending leads to where any string will do. -/
def accept : StringEnd → Except Rejection Unit
  | .closed => .ok ()
  | .unfinished => .error .unfinished
  | .malformed => .error .malformed

end StringEnd

/-- The bytes of units that have to be text: surrogates stand in pairs. -/
def decodeUnits (ending : StringEnd) : List TextUnit → Except Rejection (List UInt8)
  | [] => do
    ending.accept
    return []
  | .byte b :: rest => do
    let text ← decodeUnits ending rest
    return b :: text
  | .code u :: rest =>
    if 0xDC00 ≤ u && u ≤ 0xDFFF then .error .malformed
    else if 0xD800 ≤ u && u ≤ 0xDBFF then
      match rest with
      | .code low :: rest =>
        if 0xDC00 ≤ low && low ≤ 0xDFFF then do
          let text ← decodeUnits ending rest
          return encodePair u low ++ text
        else .error .malformed
      | [] => .error (if ending = .unfinished then .unfinished else .malformed)
      | _ => .error .malformed
    else do
      let text ← decodeUnits ending rest
      return encodeUnit u ++ text

/-- The bytes of a string that has to be text. -/
def StringBody.decode (s : StringBody) : Except Rejection (List UInt8) :=
  decodeUnits s.ending s.units

end IqBalance.Json
