import Typeahead.Text.Place

namespace Typeahead.Address.Punycode

open Text

def digit (n : Nat) : Char := if n < 26 then Char.ofNat (0x61 + n) else Char.ofNat (0x30 + (n - 26))

/-- The value of a digit; labels have no capitals when they are read. -/
def digitValue? (c : Char) : Option Nat :=
  if c.isLower then some (c.toNat - 0x61)
  else if c.isDigit then some (c.toNat - 0x30 + 26)
  else none

/-- A digit below the threshold of its place is the last one of a number. -/
def threshold (place bias : Nat) : Nat := min 26 (max 1 (place - bias))

theorem one_le_threshold (place bias : Nat) : 1 ≤ threshold place bias := by
  unfold threshold
  omega

/-- The bias for numbers of a size. -/
def biasFor (delta : Nat) : Nat :=
  if 455 < delta then 36 + biasFor (delta / 35) else 36 * delta / (delta + 38)
termination_by delta
decreasing_by omega

/-- The bias after a number, with so many characters known and the first number weighed down. -/
def adapt (delta count : Nat) (isFirst : Bool) : Nat :=
  let delta := if isFirst then delta / 700 else delta / 2
  biasFor (delta + delta / count)

/-- The digits of a number from a place on, the lowest first. -/
def numberDigits (bias place n : Nat) : List Char :=
  let t := threshold place bias
  if n < t then [digit n]
  else digit (t + (n - t) % (36 - t)) :: numberDigits bias (place + 36) ((n - t) / (36 - t))
termination_by n
decreasing_by
  have least := one_le_threshold place bias
  have smaller := Nat.div_le_self (n - threshold place bias) (36 - threshold place bias)
  omega

/-- A label while it is written. -/
structure Writing where
  digits : List Char := []
  delta : Nat := 0
  bias : Nat := 72
  /-- How many characters of the label are given. -/
  count : Nat

/-- Passes over a character, or gives it if it is the one whose turn it is. -/
def Writing.visit (basic point : Nat) (w : Writing) (c : Char) : Writing :=
  if c.toNat < point then { w with delta := w.delta + 1 }
  else if c.toNat = point then
    { digits := w.digits ++ numberDigits w.bias 36 w.delta
      delta := 0
      bias := adapt w.delta (w.count + 1) (w.count = basic)
      count := w.count + 1 }
  else w

/-- Gives all occurrences of one character after another, in the order of their code points. -/
def Writing.run (basic : Nat) (label : List Char) (w : Writing) (next : Nat) : List Nat → Writing
  | [] => w
  | point :: points =>
    let w := { w with delta := w.delta + (point - next) * (w.count + 1) }
    let w := label.foldl (visit basic point) w
    run basic label { w with delta := w.delta + 1 } (point + 1) points

/-- A label in ASCII: its ASCII characters first, then each of the others by a number, which counts the places and
characters that are passed over since the last one. -/
def encode (label : List Char) : List Char :=
  let basic := label.filter (·.toNat < 0x80)
  let points := ((label.filter (0x80 ≤ ·.toNat)).map Char.toNat).mergeSort.eraseDups
  let written := Writing.run basic.length label { count := basic.length } 0x80 points
  basic ++ (if basic.isEmpty then [] else ['-']) ++ written.digits

/-- A label while it is read. -/
structure Reading where
  label : List Char
  point : Nat := 0x80
  index : Nat := 0
  bias : Nat := 72
  /-- The index before the number that is being read. -/
  start : Nat := 0
  weight : Nat := 1
  /-- The place of the next digit of a number. -/
  place : Nat := 36

/-- Reads a digit; the last one of a number puts a character into the label. -/
def Reading.step (r : Reading) (c : Char) : Option Reading := do
  let value ← digitValue? c
  let index := r.index + value * r.weight
  let t := threshold r.place r.bias
  if t ≤ value then return { r with index, weight := r.weight * (36 - t), place := r.place + 36 }
  let count := r.label.length + 1
  let point := r.point + index / count
  if ¬point.isValidChar then none
  let position := index % count
  return {
    label := r.label.insertIdx position (Char.ofNat point)
    point
    index := position + 1
    bias := adapt (index - r.start) count (r.start == 0)
    start := position + 1 }

/-- There is no label if a number lacks its end or its character does not exist. -/
def decode? (text : List Char) : Option (List Char) := do
  let (basic, digits) ←
    match breakLast (· == '-') text with
    | some ([], _, _) => none
    | some (basic, _, digits) => some (basic, digits)
    | none => some ([], text)
  let r ← digits.foldlM Reading.step { label := basic }
  if r.place = 36 then some r.label else none

end Typeahead.Address.Punycode
