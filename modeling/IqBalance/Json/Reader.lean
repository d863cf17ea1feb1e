import IqBalance.Json.Token

/-!
Reading values from tokens. A reader takes tokens from the front and returns
what is left, which is always shorter, or the first reason to reject.

A record is read from an object, whose members may come in any order and
where unknown ones are skipped, or from an array of its members in their
order. A member that is given twice is rejected where its name is met. Members
that are missing keep the value they started with, unless all are needed.
-/

namespace IqBalance.Json

/-- A value read from the front of `input`, and the rest. -/
structure Parsed (β : Type) (input : List Token) where
  value : β
  rest : List Token
  shorter : rest.length < input.length

/-- A way to read a value from the front of a token list. -/
abbrev Reader (β : Type) := (input : List Token) → Except Rejection (Parsed β input)

/-- What a token leads to where a value of another type has to begin. A string or a number is
looked at first: one that is none is rejected as such. -/
def Token.mismatch : Token → Rejection
  | .openBrace | .openBracket | .word => .mismatched
  | .number n => if n.value.isSome then .mismatched else .malformed
  | .string s =>
    match s.decode with
    | .ok _ => .mismatched
    | .error fault => fault
  | .brokenWord fault => fault
  | .brokenNumber fault => fault.rejection
  | .closeBrace | .closeBracket | .comma | .colon | .stray => .malformed

/-! ### Skipping a value of any shape -/

/-- What a value that is being skipped is inside of. -/
inductive Container where
  | array
  | object
  deriving DecidableEq, Repr

/-- What may come next in a value that is being skipped. -/
inductive Place where
  | value
  /-- A value, or the end of an empty array. -/
  | firstElement
  | key
  /-- A key, or the end of an empty object. -/
  | firstKey
  | colon
  /-- A comma, or the end of the container. -/
  | separator
  deriving DecidableEq, Repr

/-- What one token does to a value that is being skipped. -/
inductive SkipStep where
  | done
  | next (inside : List Container) (place : Place)

/-- A value inside these containers has come to its end. -/
def SkipStep.complete : List Container → SkipStep
  | [] => .done
  | inside => .next inside .separator

/-- The first token of a value. A number that breaks off is no number here. -/
def skipValue (inside : List Container) : Token → Except Rejection SkipStep
  | .openBrace => .ok (.next (.object :: inside) .firstKey)
  | .openBracket => .ok (.next (.array :: inside) .firstElement)
  | .word | .number _ => .ok (.complete inside)
  | .string s => s.ending.accept.map fun _ => .complete inside
  | .brokenWord fault => .error fault
  | .brokenNumber _ | .closeBrace | .closeBracket | .comma | .colon | .stray => .error .malformed

/-- The key of a member. -/
def skipKey (inside : List Container) : Token → Except Rejection SkipStep
  | .string s => s.ending.accept.map fun _ => .next inside .colon
  | _ => .error .malformed

/-- One token of a value that is being skipped. -/
def skipToken (inside : List Container) : Place → Token → Except Rejection SkipStep
  | .value, t => skipValue inside t
  | .firstElement, .closeBracket => .ok (.complete (inside.drop 1))
  | .firstElement, t => skipValue inside t
  | .key, t => skipKey inside t
  | .firstKey, .closeBrace => .ok (.complete (inside.drop 1))
  | .firstKey, t => skipKey inside t
  | .colon, .colon => .ok (.next inside .value)
  | .colon, _ => .error .malformed
  | .separator, t =>
    match inside, t with
    | .array :: _, .comma => .ok (.next inside .value)
    | .object :: _, .comma => .ok (.next inside .key)
    | .array :: outer, .closeBracket => .ok (.complete outer)
    | .object :: outer, .closeBrace => .ok (.complete outer)
    | _, _ => .error .malformed

/-- Skip the rest of a value. -/
def skipFrom (inside : List Container) (place : Place) : Reader Unit
  | [] => .error .unfinished
  | t :: rest =>
    match skipToken inside place t with
    | .error fault => .error fault
    | .ok .done => .ok ⟨(), rest, Nat.lt_succ_self _⟩
    | .ok (.next inside place) => do
      let p ← skipFrom inside place rest
      return ⟨(), p.rest, Nat.lt_succ_of_lt p.shorter⟩

/-- Skip one value of any shape. -/
def skip : Reader Unit := skipFrom [] .value

/-! ### Numbers -/

/-- An integer that is not negative and fits 64 bits. -/
def readCount : Reader Nat
  | [] => .error .unfinished
  | .number n :: rest =>
    match n.value with
    | some (.natural k) => .ok ⟨k, rest, Nat.lt_succ_self _⟩
    | some _ => .error .mismatched
    | none => .error .malformed
  | t :: _ => .error t.mismatch

/-- A number in single precision. -/
def readFloat32 : Reader Float32
  | [] => .error .unfinished
  | .number n :: rest =>
    match n.value with
    | some x => .ok ⟨x.toFloat32, rest, Nat.lt_succ_self _⟩
    | none => .error .malformed
  | t :: _ => .error t.mismatch

/-! ### Records -/

/-- A named part of a record, and how to read it into one. -/
structure Member (ρ : Type) where
  name : String
  read : ρ → Reader ρ

/-- A member that is read on its own and then put into the record. -/
def Member.of {ρ β : Type} (name : String) (read : Reader β) (put : ρ → β → ρ) : Member ρ where
  name := name
  read record input := do
    let p ← read input
    return ⟨put record p.value, p.rest, p.shorter⟩

/-- How a record is read. -/
structure Shape (ρ : Type) where
  /-- The members, in the order of the array form. -/
  members : List (Member ρ)
  /-- The record before any member is read. -/
  start : ρ
  /-- Every member has to be there. -/
  complete : Bool

namespace Shape

variable {ρ : Type}

/-- The member of this name. -/
def member? (shape : Shape ρ) (name : List UInt8) : Option (Member ρ) :=
  shape.members.find? fun m => m.name.toUTF8.toList == name

/-- Every needed member is among these. -/
def isSatisfiedBy (shape : Shape ρ) (seen : List String) : Bool :=
  !shape.complete || shape.members.all fun m => seen.contains m.name

/-- The colon after a key. -/
def readColon : Reader Unit
  | [] => .error .unfinished
  | .colon :: rest => .ok ⟨(), rest, Nat.lt_succ_self _⟩
  | _ :: _ => .error .malformed

/-- The value after this key, and the names seen with it. A name that was seen before is rejected
at once. -/
def readMember (shape : Shape ρ) (seen : List String) (record : ρ) (name : List UInt8) :
    Reader (List String × ρ) := fun input => do
  match shape.member? name with
  | some m =>
    if seen.contains m.name then .error .mismatched
    let colon ← readColon input
    let p ← m.read record colon.rest
    return ⟨(m.name :: seen, p.value), p.rest, Nat.lt_trans p.shorter colon.shorter⟩
  | none =>
    let colon ← readColon input
    let p ← skip colon.rest
    return ⟨(seen, record), p.rest, Nat.lt_trans p.shorter colon.shorter⟩

/-- Members up to the closing brace. The next token has to be a key. -/
def readMembers (shape : Shape ρ) (seen : List String) (record : ρ) :
    (input : List Token) → Except Rejection (Parsed ρ input)
  | [] => .error .unfinished
  | .string key :: input => do
    let name ← key.decode
    let p ← shape.readMember seen record name input
    match h : p.rest with
    | [] => .error .unfinished
    | .closeBrace :: rest =>
      if shape.isSatisfiedBy p.value.1 then
        return ⟨p.value.2, rest, by
          have := p.shorter; rw [h] at this; simp only [List.length_cons] at this ⊢; omega⟩
      else .error .mismatched
    | .comma :: rest => do
      let q ← shape.readMembers p.value.1 p.value.2 rest
      return ⟨q.value, q.rest, by
        have := p.shorter; have := q.shorter; rw [h] at *
        simp only [List.length_cons] at *; omega⟩
    | _ :: _ => .error .malformed
  | _ :: _ => .error .malformed
termination_by input => input.length
decreasing_by
  have := p.shorter
  rw [h] at this
  simp only [List.length_cons] at *
  omega

/-- Members in their order, up to the closing bracket. In front of every one but the first stands
a comma. -/
def readElements (shape : Shape ρ) (first : Bool) (record : ρ) :
    List (Member ρ) → (input : List Token) → Except Rejection (Parsed ρ input)
  | _, [] => .error .unfinished
  | [], .closeBracket :: rest => .ok ⟨record, rest, Nat.lt_succ_self _⟩
  | [], _ :: _ => .error .malformed
  | _ :: _, .closeBracket :: rest =>
    if shape.complete then .error .mismatched else .ok ⟨record, rest, Nat.lt_succ_self _⟩
  | m :: members, t :: rest =>
    if first then do
      let p ← m.read record (t :: rest)
      let q ← shape.readElements false p.value members p.rest
      return ⟨q.value, q.rest, Nat.lt_trans q.shorter p.shorter⟩
    else
      match t, rest with
      | .comma, [] => .error .unfinished
      | .comma, .closeBracket :: _ => .error .malformed
      | .comma, t :: rest => do
        let p ← m.read record (t :: rest)
        let q ← shape.readElements false p.value members p.rest
        return ⟨q.value, q.rest,
          Nat.lt_succ_of_lt (Nat.lt_trans q.shorter p.shorter)⟩
      | _, _ => .error .malformed

/-- A record, from an object or from an array. -/
def read (shape : Shape ρ) : Reader ρ
  | [] => .error .unfinished
  | .openBrace :: .closeBrace :: rest =>
    if shape.isSatisfiedBy [] then
      .ok ⟨shape.start, rest, by simp only [List.length_cons]; omega⟩
    else .error .mismatched
  | .openBrace :: input => do
    let p ← shape.readMembers [] shape.start input
    return ⟨p.value, p.rest, Nat.lt_succ_of_lt p.shorter⟩
  | .openBracket :: input => do
    let p ← shape.readElements true shape.start shape.members input
    return ⟨p.value, p.rest, Nat.lt_succ_of_lt p.shorter⟩
  | t :: _ => .error t.mismatch

end Shape

/-- Read a whole text: nothing but blanks may follow the value. -/
def parse {β : Type} (read : Reader β) (text : List UInt8) : Except Rejection β := do
  let p ← read (tokens text)
  if p.rest.isEmpty then return p.value else .error .malformed

end IqBalance.Json
