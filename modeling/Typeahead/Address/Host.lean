import Typeahead.Address.Escape
import Typeahead.Address.Number
import Typeahead.Address.Punycode
import Typeahead.Text.Blank
import Typeahead.Text.CaseFold
import Typeahead.Text.ClusterClass

namespace Typeahead.Address

open Text

/-- A domain name is kept without case and with its labels in ASCII; a name that ends in a number is a numeric host. -/
inductive Host where
  | name (text : String)
  | fourBytes (value : Nat)
  | eightGroups (groups : List Nat)
  deriving DecidableEq, Repr

/-- What a character of a domain name stands for. Invisible ones stand for nothing, and letters for their
small forms; the wide forms of ASCII and the full stops of other scripts are plain. -/
def domainChar (c : Char) : List Char :=
  let n := c.toNat
  if n = 0xad ∨ n = 0x200b ∨ n = 0x2060 ∨ n = 0xfeff ∨ (0xfe00 ≤ n ∧ n ≤ 0xfe0f) then []
  else if n = 0x3002 ∨ n = 0xff61 then ['.']
  else if n = 0x130 then ['i', '\u0307']
  else if n = 0x3c2 then [c]
  else if 0xff01 ≤ n ∧ n ≤ 0xff5e then [foldCase (Char.ofNat (n - 0xfee0))]
  else [foldCase c]

/-- What a domain name may not hold, blanks and controls apart. -/
def domainForbidden : List Char := ['#', '%', '/', ':', '<', '>', '?', '@', '[', '\\', ']', '^', '|']

def isDomainChar (c : Char) : Bool :=
  !isBlank c && clusterClass c != .control && !domainForbidden.contains c

/-- What the name of any other host may not hold. -/
def hostForbidden : List Char :=
  ['\x00', '\t', '\n', '\r', ' ', '#', '/', ':', '<', '>', '?', '@', '[', '\\', ']', '^', '|']

/-- A label in ASCII. One that already stands for other characters has to stand for some that are as
domain names have them. -/
def domainLabel? (label : List Char) : Option (List Char) :=
  if label.any (0x80 ≤ ·.toNat) then some ("xn--".toList ++ Punycode.encode label)
  else
    match dropStart? "xn--".toList label with
    | none => some label
    | some coded =>
      match Punycode.decode? coded with
      | none => none
      | some decoded =>
        let isProper := decoded.all isDomainChar && decoded.flatMap domainChar == decoded
        if isProper && decoded.any (0x80 ≤ ·.toNat) then some label else none

/-- A domain name in ASCII. -/
def domain? (text : List Char) : Option (List Char) := do
  let text := text.flatMap domainChar
  let labels ← (fields (· == '.') text).mapM domainLabel?
  if text.isEmpty || !text.all isDomainChar then none else return ['.'].intercalate labels

/-- A host in brackets. -/
def bracketed? (text : List Char) : Option Host :=
  if text.getLast? = some ']' then (eightGroups? (text.drop 1).dropLast).map .eightGroups else none

/-- The host of an address whose scheme knows domain names. -/
def Host.ofDomain? (text : List Char) : Option Host :=
  if text.head? = some '[' then bracketed? text
  else do
    let name ← domain? (← unescape? text)
    if endsInNumber name then (fourBytes? name).map .fourBytes else some (.name (String.ofList name))

/-- The host of any other address; its name may be empty. -/
def Host.ofName? (text : List Char) : Option Host :=
  if text.head? = some '[' then bracketed? text
  else if text.any hostForbidden.contains then none
  else some (.name (String.ofList (escape [] text)))

end Typeahead.Address
