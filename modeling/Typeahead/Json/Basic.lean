namespace Typeahead

/-- A number keeps its literal, and an object its fields in the order written, repetitions included. -/
inductive Json where
  | null
  | bool (value : Bool)
  | number (literal : String)
  | string (text : String)
  | array (items : List Json)
  | object (fields : List (String × Json))
  deriving Repr, Inhabited

namespace Json

/-- A number without sign, point or exponent. -/
def nat (n : Nat) : Json := .number (toString n)

/-- `null` for no value. -/
def ofOption {α : Type} (encode : α → Json) : Option α → Json
  | none => .null
  | some value => encode value

def ofList {α : Type} (encode : α → Json) (items : List α) : Json := .array (items.map encode)

/-- The value of a field; the last one when the name is repeated. -/
def field? (name : String) : Json → Option Json
  | .object fields => (fields.reverse.find? (·.1 == name)).map (·.2)
  | _ => none

/-- The object with the values of some fields that may be absent. -/
def ofFields (fields : List (String × Option Json)) : Json :=
  .object (fields.filterMap fun (name, value) => value.map fun v => (name, v))

end Json

end Typeahead
