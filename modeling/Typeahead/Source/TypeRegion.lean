import Typeahead.Text.Blank
import Typeahead.Text.Place

namespace Typeahead.Source

open Text

/-- A declared class, struct, interface or record. -/
structure TypeRegion where
  /-- Offset of the keyword. -/
  start : Nat
  /-- Offset just past the opening brace. -/
  bodyStart : Nat
  /-- Offset of the closing brace, or where the body is taken to end when there is none. -/
  stop : Nat
  name : String
  bases : List String
  isStatic : Bool
  deriving DecidableEq, Repr

def typeKeywords : List (List Char) :=
  ["class".toList, "struct".toList, "interface".toList, "record".toList]

/-- A type keyword followed by an ASCII blank and a name, and not the tail of a longer or a dotted name. -/
def declaresType (p : Place) : Bool :=
  !p.before.head?.any (fun c => isIdentifierChar c || c == '.') &&
    typeKeywords.any fun keyword =>
      keyword.isPrefixOf p.rest &&
        let rest := p.rest.drop keyword.length
        rest.head?.any isAsciiBlank &&
          (trimStart rest).head?.any fun c => isIdentifierChar c && !c.isDigit

def typeDeclarations (text : List Char) : List Place := (places text).filter declaresType

def typeDeclarationOffsets (text : List Char) : List Nat := (typeDeclarations text).map (·.offset)

def isBeforeFirstType (text : List Char) (caret : Nat) : Bool :=
  match typeDeclarationOffsets text with
  | [] => true
  | first :: _ => caret ≤ first

/-- Offset of the brace that closes `depth` open ones. -/
def closingBrace (offset depth : Nat) : List Char → Option Nat
  | [] => none
  | c :: cs =>
    if c = '{' then closingBrace (offset + c.utf8Size) (depth + 1) cs
    else if c = '}' then
      if depth ≤ 1 then some offset else closingBrace (offset + c.utf8Size) (depth - 1) cs
    else closingBrace (offset + c.utf8Size) depth cs

/-- Offset of the brace that closes the one before `afterOpen`. -/
def matchingBrace (text : List Char) (afterOpen : Nat) : Option Nat :=
  ((places text).find? (afterOpen ≤ ·.offset)).bind fun p => closingBrace p.offset 1 p.rest

/-- Every byte of the UTF-8 form as a character of its own. -/
def bytesAsChars (cs : List Char) : List Char :=
  cs.flatMap fun c => (String.utf8EncodeChar c).map fun b => Char.ofNat b.toNat

/-- What follows the first colon outside angle brackets and parentheses. -/
def baseClause (depth : Int) : List Char → Option (List Char)
  | [] => none
  | c :: cs =>
    if c = '<' ∨ c = '(' then baseClause (depth + 1) cs
    else if c = '>' ∨ c = ')' then baseClause (depth - 1) cs
    else if c = ':' ∧ depth = 0 then some cs
    else baseClause depth cs

/-- The parts between commas outside angle brackets. -/
def splitBases (depth : Int) : List Char → List (List Char)
  | [] => [[]]
  | c :: cs =>
    if c = ',' ∧ depth = 0 then [] :: splitBases depth cs
    else
      let deeper := if c = '<' then depth + 1 else if c = '>' then depth - 1 else depth
      match splitBases deeper cs with
      | [] => [[c]]
      | first :: others => (c :: first) :: others

/-- Runs of blanks become one space, blanks at the ends go. -/
def squeeze (cs : List Char) : List Char := [' '].intercalate (words cs)

/-- The text before the word `where`. -/
def beforeConstraints (clause : List Char) : List Char :=
  match wordPlaces "where".toList clause with
  | [] => clause
  | p :: _ => p.before.reverse

/-- `Foo<T> : Bar, IBaz where T : new()` gives `Bar` and `IBaz`. -/
def basesOf (header : List Char) : List String :=
  match baseClause 0 header with
  | none => []
  | some clause =>
    ((splitBases 0 (beforeConstraints clause)).map squeeze |>.filter (!·.isEmpty)).map String.ofList

/-- The text between the last statement boundary before a place and the place. -/
def modifiersBefore (p : Place) : List Char :=
  (p.before.takeWhile fun c => !(c == ';' || c == '{' || c == '}' || c == ']' || c == ')')).reverse

/-- The declaration at a place; none without an opening brace or with a semicolon before it. An
unclosed body ends at `unclosedEnd`. -/
def TypeRegion.at? (unclosedEnd : Nat) (p : Place) : Option TypeRegion :=
  match breakFirst (· == '{') p.rest with
  | none => none
  | some (header, _, body) =>
    if header.contains ';' then none
    else
      let bodyStart := p.offset + utf8Length header + 1
      let named := trimStart ((header.dropWhile (!isBlank ·)).drop 1)
      some {
        start := p.offset
        bodyStart
        stop := (closingBrace bodyStart 1 body).getD (max unclosedEnd bodyStart)
        name := String.ofList (bytesAsChars (named.takeWhile isIdentifierChar))
        bases := basesOf named
        isStatic := Text.hasWord "static".toList (modifiersBefore p) }

/-- The innermost declaration around the caret. An unclosed body reaches to the next declaration after
the caret. -/
def enclosingType (text : List Char) (caret : Nat) : Option TypeRegion :=
  let declarations := typeDeclarations text
  let limit := ((declarations.find? (caret ≤ ·.offset)).map (·.offset)).getD (utf8Length text)
  (declarations.filter (·.offset < caret)).reverse.findSome? fun p =>
    (TypeRegion.at? (max limit caret) p).filter fun r => r.bodyStart ≤ caret && caret ≤ r.stop

/-- The first declaration of a type of this name. -/
def typeNamed (text : List Char) (name : String) : Option TypeRegion :=
  (typeDeclarations text).findSome? fun p =>
    (TypeRegion.at? (utf8Length text) p).filter (·.name == name)

end Typeahead.Source
