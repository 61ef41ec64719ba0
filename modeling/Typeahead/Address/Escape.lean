import Typeahead.Text.Numeral

namespace Typeahead.Address

open Text

/-- What a fragment reserves. -/
def fragmentReserved : List Char := [' ', '"', '<', '>', '`']

/-- What a query reserves. -/
def queryReserved : List Char := [' ', '"', '#', '<', '>']

/-- What a path reserves. -/
def pathReserved : List Char := fragmentReserved ++ ['#', '?', '{', '}']

/-- What the name and the password of a user reserve. -/
def userReserved : List Char := pathReserved ++ ['/', ':', ';', '=', '@', '[', '\\', ']', '^', '|']

/-- A character that is written as itself. -/
def isPlain (reserved : List Char) (c : Char) : Bool := 0x20 ≤ c.toNat && c.toNat < 0x7f && !reserved.contains c

/-- A percent sign and two hexadecimal digits. -/
def escapeByte (b : UInt8) : List Char :=
  ['%', (hexDigit (b.toNat / 16)).toUpper, (hexDigit (b.toNat % 16)).toUpper]

def escape (reserved cs : List Char) : List Char :=
  cs.flatMap fun c => if isPlain reserved c then [c] else (String.utf8EncodeChar c).flatMap escapeByte

/-- The bytes of a text with its escapes resolved. A percent sign that begins no escape is itself. -/
def unescapedBytes : List Char → List UInt8
  | [] => []
  | '%' :: a :: b :: cs =>
    match hexValue? a, hexValue? b with
    | some high, some low => UInt8.ofNat (high * 16 + low) :: unescapedBytes cs
    | _, _ => 0x25 :: unescapedBytes (a :: b :: cs)
  | c :: cs => String.utf8EncodeChar c ++ unescapedBytes cs

/-- The text with its escapes resolved; there is none if the bytes are not UTF-8. -/
def unescape? (cs : List Char) : Option (List Char) :=
  (String.fromUTF8? ⟨(unescapedBytes cs).toArray⟩).map (·.toList)

end Typeahead.Address
