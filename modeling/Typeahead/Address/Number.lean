import Typeahead.Text.Numeral
import Typeahead.Text.Place

namespace Typeahead.Address

open Text

/-- A part of a dotted number: decimal, octal after a zero, hexadecimal after `0x`. -/
def dottedPart? (cs : List Char) : Option Nat :=
  match cs with
  | [] => none
  | '0' :: 'x' :: digits | '0' :: 'X' :: digits => numberValue? 16 digits
  | '0' :: c :: digits => numberValue? 8 (c :: digits)
  | digits => numberValue? 10 digits

/-- The parts of a name without an empty one at its end. -/
def nameParts (name : List Char) : List (List Char) :=
  let parts := fields (· == '.') name
  if parts.getLast? = some [] then parts.dropLast else parts

/-- The last part of the name is a number, or looks like one. -/
def endsInNumber (name : List Char) : Bool :=
  (nameParts name).getLast?.any fun last =>
    (!last.isEmpty && last.all Char.isDigit) || (dottedPart? last).isSome

/-- The four bytes as one number. The last part stands for all bytes that the others do not give. -/
def fourBytes? (name : List Char) : Option Nat := do
  let numbers ← (nameParts name).mapM dottedPart?
  let last ← numbers.getLast?
  let first := numbers.dropLast
  let room := Nat.pow 256 (4 - first.length)
  if 3 < first.length ∨ first.any (255 < ·) ∨ room ≤ last then none
  return first.foldl (fun value n => value * 256 + n) 0 * room + last

/-- One to four hexadecimal digits. -/
def group? (cs : List Char) : Option Nat :=
  if cs.isEmpty ∨ 4 < cs.length then none else numberValue? 16 cs

/-- A byte in decimal without a zero in front. -/
def byte? (cs : List Char) : Option Nat :=
  if cs.isEmpty ∨ 3 < cs.length ∨ (cs.head? = some '0' ∧ 1 < cs.length) then none
  else (numberValue? 10 cs).filter (· < 256)

/-- Two groups written as four bytes. -/
def dottedGroups? (cs : List Char) : Option (List Nat) := do
  match ← (fields (· == '.') cs).mapM byte? with
  | [a, b, c, d] => return [a * 256 + b, c * 256 + d]
  | _ => none

/-- Groups with colons between them; the last two may be written as bytes at the end of the number. -/
def groups? (isEnd : Bool) (cs : List Char) : Option (List Nat) := do
  if cs.isEmpty then return []
  let parts := fields (· == ':') cs
  let last ← parts.getLast?
  let first ← parts.dropLast.mapM group?
  if isEnd ∧ last.contains '.' then return first ++ (← dottedGroups? last)
  return first ++ [← group? last]

/-- Eight groups; `::` stands for one or more that are zero. -/
def eightGroups? (cs : List Char) : Option (List Nat) :=
  match splitFirst "::".toList cs with
  | none => (groups? true cs).filter (·.length == 8)
  | some (earlier, later) => do
    let earlier ← groups? false earlier
    let later ← groups? true later
    let missing := 8 - (earlier.length + later.length)
    if missing = 0 then none
    else return earlier ++ List.replicate missing 0 ++ later

end Typeahead.Address
