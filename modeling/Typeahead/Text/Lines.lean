import Typeahead.Text.Offset

namespace Typeahead.Text

/-- Line feed, vertical tab, form feed, carriage return, next line, line and paragraph separator. -/
def isLineBreak (c : Char) : Bool :=
  c == '\n' || c == '\x0b' || c == '\x0c' || c == '\r' || c == '\u0085' || c == '\u2028' || c == '\u2029'

/-- The lines with their breaks. A carriage return and the line feed after it are one break. The last
line has none, and it may be empty. -/
def lines : List Char → List (List Char)
  | [] => [[]]
  | '\r' :: '\n' :: cs => ['\r', '\n'] :: lines cs
  | c :: cs =>
    if isLineBreak c then [c] :: lines cs
    else
      match lines cs with
      | [] => [[c]]
      | first :: more => (c :: first) :: more

theorem lines_ne_nil (cs : List Char) : lines cs ≠ [] := by
  fun_cases lines cs <;> simp_all

/-- Number of UTF-16 units of a character. -/
def utf16Size (c : Char) : Nat := if c.toNat < 0x10000 then 1 else 2

/-- Number of UTF-16 units. -/
def utf16Length : List Char → Nat
  | [] => 0
  | c :: cs => utf16Size c + utf16Length cs

/-- The shortest start of a text that has at least `n` UTF-16 units, or all of it. -/
def upToUnits : Nat → List Char → List Char
  | 0, _ => []
  | _, [] => []
  | n + 1, c :: cs => c :: upToUnits (n + 1 - utf16Size c) cs

/-- A place in a text: the number of a line, and the UTF-16 units before the place in it. -/
structure Position where
  line : Nat
  column : Nat
  deriving DecidableEq, Repr

/-- The byte offset of a position. A column past the end of a line is the end of the line before a line
feed or carriage return. -/
def offsetAt? (text : List Char) (p : Position) : Option Nat :=
  let all := lines text
  all[p.line]?.map fun line =>
    let content := line.takeWhile fun c => c ≠ '\n' ∧ c ≠ '\r'
    utf8Length (all.take p.line).flatten + utf8Length (upToUnits p.column content)

/-- The position of a byte offset in the lines from a number on. -/
def positionIn (number : Nat) : List (List Char) → (offset : Nat) → Position
  | [], _ => ⟨number, 0⟩
  | [last], offset => ⟨number, utf16Length (upTo offset last)⟩
  | line :: next :: more, offset =>
    if offset < utf8Length line then ⟨number, utf16Length (upTo offset line)⟩
    else positionIn (number + 1) (next :: more) (offset - utf8Length line)

/-- The position of a byte offset. An offset inside a character counts as its start, one past the end as
the end. -/
def positionAt (text : List Char) (offset : Nat) : Position := positionIn 0 (lines text) offset

end Typeahead.Text
