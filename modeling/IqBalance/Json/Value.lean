import IqBalance.Text.NumberForm

/-!
Writing JSON. A `Value` is what the library has to write: counts,
single-precision numbers, and records of these, whose members keep their
order. `render` adds no blanks.
-/

namespace IqBalance.Json

/-- A value to be written. -/
inductive Value where
  | count (n : Nat)
  | real (x : Float32)
  | record (members : List (String × Value))

mutual

/-- The text of a value. -/
def Value.render : Value → String
  | .count n => toString n
  | .real x => Text.NumberForm.json.write x
  | .record members => "\x7b" ++ ",".intercalate (Value.renderMembers members) ++ "\x7d"

/-- The texts of members. -/
def Value.renderMembers : List (String × Value) → List String
  | [] => []
  | (name, value) :: rest =>
    ("\"" ++ name ++ "\":" ++ value.render) :: Value.renderMembers rest

end

end IqBalance.Json
