import Typeahead.Source.TypeRegion

namespace Typeahead.Source

open Text

/-- A `using` directive. -/
inductive Using where
  | wholeNamespace (target : String)
  | staticsOf (target : String)
  | aliasOf (name target : String)
  deriving DecidableEq, Repr

/-- Offset of the first character of the line that contains `offset`. -/
def lineStart (text : List Char) (offset : Nat) : Except CutError Nat :=
  (cut offset text).map fun (earlier, _) => offset - utf8Length (lastField (· == '\n') earlier)

def isDottedNameChar (c : Char) : Bool := isIdentifierChar c || c == '.'

def isDottedName (cs : List Char) : Bool := !cs.isEmpty && cs.all isDottedNameChar

/-- `rest` after the keyword when a blank follows it, without leading blanks. -/
def afterKeyword? (keyword cs : List Char) : Option (List Char) :=
  match dropStart? keyword cs with
  | some rest => if rest.head?.any isBlank then some (trimStart rest) else none
  | none => none

/-- The name typed so far when the last line of `text` is an unfinished import. -/
def usingPartial? (text : List Char) : Option String := do
  let rest ← afterKeyword? "using".toList (trimStart (lastField (· == '\n') text))
  let rest := (afterKeyword? "static".toList rest).getD rest
  let rest ←
    match breakFirst (· == '=') rest with
    | none => some rest
    | some (name, _, target) =>
      if (trim name).all isIdentifierChar then some (trimStart target) else none
  if "var ".toList.isPrefixOf rest then none
  else if rest.all isDottedNameChar then some (String.ofList rest) else none

/-- `//$`, `//?` or `//&` at the start of the last line: the marker and what follows it. -/
def embeddedOption? (text : List Char) : Option (Char × List Char) :=
  match trimStart (lastField (· == '\n') text) with
  | '/' :: '/' :: marker :: rest =>
    if marker = '$' ∨ marker = '?' ∨ marker = '&' then some (marker, rest) else none
  | _ => none

/-- What stands between the word `using` and its semicolon, when it is a directive. -/
def Using.ofBody? (body : List Char) : Option Using :=
  match dropStart? "static".toList body with
  | some rest =>
    if rest.head?.any isBlank then
      let target := trim rest
      if isDottedName target then some (.staticsOf (String.ofList target)) else none
    else plain
  | none => plain
where
  plain : Option Using :=
    match breakFirst (· == '=') body with
    | some (name, _, target) =>
      let name := trim name
      let target := trim target
      if name.all isIdentifierChar && !name.isEmpty && !target.isEmpty then
        some (.aliasOf (String.ofList name) (String.ofList target))
      else none
    | none => if isDottedName body then some (.wholeNamespace (String.ofList body)) else none

/-- A body that belongs to a statement or was left unfinished in front of other code. -/
def isStatementBody (body : List Char) : Bool :=
  body.any (fun c => c == '(' || c == '{' || c == '}') || "var ".toList.isPrefixOf body

/-- Reads the directives at the given occurrences of `using`, skipping those before `start`. The word
and everything up to the semicolon is used up, except when that text is no directive body at all. -/
def usingsFrom (start : Nat) : List Place → List Using
  | [] => []
  | p :: ps =>
    if p.offset < start then usingsFrom start ps
    else
      let rest := p.rest.drop 5
      match breakFirst (· == ';') rest with
      | none => []
      | some (text, _, _) =>
        let body := trim text
        let here := p.offset + 5
        if isStatementBody body then usingsFrom here ps
        else
          let next := here + utf8Length text + 1
          match Using.ofBody? body with
          | some directive => directive :: usingsFrom next ps
          | none => usingsFrom next ps

/-- The directives of a blanked text, in order. -/
def usings (text : List Char) : List Using := usingsFrom 0 (wordPlaces "using".toList text)

/-- The names of the namespace declarations around the caret, outermost first, among those at the given
occurrences of the word that are not before `start`. A declaration that ends in a semicolon reaches to
the end of the text. -/
def namespacesFrom (caret start : Nat) : List Place → List String
  | [] => []
  | p :: ps =>
    if p.offset < start then namespacesFrom caret start ps
    else if caret ≤ p.offset then []
    else
      let rest := p.rest.drop 9
      let named := trimStart rest
      let name := named.takeWhile isDottedNameChar
      let later := named.drop name.length
      let next := p.offset + 9 + utf8Length (rest.takeWhile isBlank) + utf8Length name
      let inForce :=
        match trimStart later with
        | ';' :: _ => true
        | '{' :: body =>
          let bodyStart := next + utf8Length (later.takeWhile isBlank) + 1
          ((closingBrace bodyStart 1 body).map fun stop => decide (caret ≤ stop)).getD true
        | _ => false
      if !name.isEmpty && inForce then String.ofList name :: namespacesFrom caret next ps
      else namespacesFrom caret next ps

/-- The namespace in force at the caret. -/
def namespaceAt? (text : List Char) (caret : Nat) : Option String :=
  match namespacesFrom caret 0 (wordPlaces "namespace".toList text) with
  | [] => none
  | names => some (".".intercalate names)

end Typeahead.Source
