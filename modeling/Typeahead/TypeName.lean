import Typeahead.Text.Alphanumeric
import Typeahead.Text.Blank
import Typeahead.Text.Place

namespace Typeahead

open Text

/-- A type reference as it is written in code and in metadata. It stays text, and its structure is read off the text. -/
structure TypeName where
  text : String
  deriving DecidableEq, Repr, Inhabited

namespace TypeName

/-- The language's own words for types of the namespace `System`. -/
def keywordAliases : List (String × String) := [
  ("bool", "System.Boolean"),
  ("byte", "System.Byte"),
  ("sbyte", "System.SByte"),
  ("char", "System.Char"),
  ("decimal", "System.Decimal"),
  ("double", "System.Double"),
  ("float", "System.Single"),
  ("int", "System.Int32"),
  ("uint", "System.UInt32"),
  ("long", "System.Int64"),
  ("ulong", "System.UInt64"),
  ("short", "System.Int16"),
  ("ushort", "System.UInt16"),
  ("object", "System.Object"),
  ("string", "System.String"),
  ("void", "System.Void")]

def keywordAlias? (name : String) : Option String := keywordAliases.lookup name

def isArray (t : TypeName) : Bool := t.text.toList.getLast? == some ']'

/-- The element type of an array: the text before its last opening square bracket. -/
def arrayElement? (t : TypeName) : Option TypeName :=
  if t.isArray then
    (breakLast (· == '[') t.text.toList).map fun (element, _) => ⟨String.ofList (trimEnd element)⟩
  else none

/-- The name without generic arguments, array ranks and nullable marker; a keyword alias stands for
its type. -/
def canonicalBase (t : TypeName) : String :=
  let base := trim ((t.text.toList.takeWhile (· ≠ '<')).takeWhile (· ≠ '['))
  let base := trim (base.reverse.dropWhile (· == '?')).reverse
  let name := String.ofList base
  (keywordAlias? name).getD name

/-- The arguments in the text after an opening angle bracket, up to the one that closes it. `current`
is the argument read so far, backwards. An argument that is not ended is dropped. -/
def argumentTexts (depth : Nat) (current : List Char) : List Char → List (List Char)
  | [] => []
  | c :: cs =>
    if c = '<' then argumentTexts (depth + 1) (c :: current) cs
    else if c = '>' then
      if depth ≤ 1 then [current.reverse] else argumentTexts (depth - 1) (c :: current) cs
    else if c = ',' ∧ depth = 1 then current.reverse :: argumentTexts depth [] cs
    else argumentTexts depth (c :: current) cs

/-- The generic arguments of the outermost list. -/
def arguments (t : TypeName) : List TypeName :=
  match breakFirst (· == '<') t.text.toList with
  | none => []
  | some (_, _, inside) =>
    ((argumentTexts 1 [] inside).map trim |>.filter (!·.isEmpty)).map fun a => ⟨String.ofList a⟩

/-- A maximal run of name characters, or any other character. -/
inductive Part where
  | name (text : List Char)
  | mark (c : Char)
  deriving DecidableEq, Repr

/-- Letters, digits, the underscore and the two separators of qualified names. -/
def isNameChar (c : Char) : Bool := isAlphanumeric c || c == '_' || c == '.' || c == '+'

def parts : List Char → List Part
  | [] => []
  | c :: cs =>
    if isNameChar c then
      match parts cs with
      | .name text :: rest => .name (c :: text) :: rest
      | rest => .name [c] :: rest
    else .mark c :: parts cs

def Part.text : Part → List Char
  | .name text => text
  | .mark c => [c]

/-- The argument for a parameter, when there is one. -/
def replacement? (parameters : List String) (arguments : List TypeName) (name : String) :
    Option TypeName :=
  (parameters.findIdx? (· == name)).bind (arguments[·]?)

def Part.substitute (parameters : List String) (arguments : List TypeName) : Part → List Char
  | .name text =>
    match replacement? parameters arguments (String.ofList text) with
    | some argument => argument.text.toList
    | none => text
  | .mark c => [c]

/-- Every name that is a parameter becomes its argument, all at once; a parameter without an argument
stays. -/
def substitute (t : TypeName) (parameters : List String) (arguments : List TypeName) : TypeName :=
  ⟨String.ofList ((parts t.text.toList).flatMap (Part.substitute parameters arguments))⟩

def Part.display : Part → List Char
  | .name text => lastField (fun c => c == '.' || c == '+') text
  | .mark c => [c]

/-- The text with every name cut to its last part. -/
def display (t : TypeName) : String := String.ofList ((parts t.text.toList).flatMap Part.display)

end TypeName

end Typeahead
