import Typeahead.Markup.Dictionary
import Typeahead.Text.Alphanumeric

namespace Typeahead.Markup

open Text

/-- The last opening mark comes after the last closing one. -/
def opensLast (opening closing text : List Char) : Bool :=
  match lastOffset opening text, lastOffset closing text with
  | some o, some c => c < o
  | some _, none => true
  | none, _ => false

/-- An odd number of double quotes: the text ends inside a quoted value. -/
def endsInQuotes (text : List Char) : Bool := (text.filter (· == '"')).length % 2 == 1

/-- The text after the last blank. The cut is made one byte behind the start of the blank, and has no
result when the blank is longer than that. -/
def lastWord (text : List Char) : Except CutError (List Char) :=
  match breakLast isBlank text with
  | none => .ok text
  | some (_, blank, word) => afterFirstByte (blank :: word)

/-- Letters and digits of any script, the hyphen, the colon and the underscore. -/
def isNameChar (c : Char) : Bool := isAlphanumeric c || c == '-' || c == ':' || c == '_'

/-- Reads the names of attributes. `name` is the word read so far, backwards; after an equals sign the
next word is a value, and so is all between quotes. A word that runs to the end is not yet a name. -/
def attributeNamesFrom (quoted isValue : Bool) (name : List Char) : List Char → List String
  | [] => []
  | c :: cs =>
    if c = '"' then attributeNamesFrom (!quoted) false name cs
    else if quoted then attributeNamesFrom quoted isValue name cs
    else if isNameChar c then attributeNamesFrom quoted isValue (c :: name) cs
    else if name.isEmpty then attributeNamesFrom quoted (isValue || c == '=') [] cs
    else if isValue then attributeNamesFrom quoted (c == '=') [] cs
    else
      String.ofList (name.reverse.map Char.toLower) :: attributeNamesFrom quoted (c == '=') [] cs

/-- The names, in lower case, of the attributes that an open tag has already. -/
def attributeNames (text : List Char) : List String := attributeNamesFrom false false [] text

/-- What is typed at the end of a markup document. -/
inductive Target where
  /-- Text, a comment or a declaration. -/
  | content
  | tagName (typed : String)
  | closingTag (typed : String)
  | attributeName (tag typed : String) (present : List String)
  | attributeValue (tag attr typed : String)
  deriving DecidableEq, Repr

/-- The target in a quoted value; `attributes` is the open tag from its first blank on. -/
def Target.ofValue (tag : String) (attributes : List Char) : Except CutError Target :=
  match breakLast (· == '"') attributes with
  | none => .ok .content
  | some (before, _, typed) =>
    match (trimEnd before).reverse with
    | '=' :: name => do
      return .attributeValue tag (String.ofList (← lastWord (trimEnd name.reverse))) (String.ofList typed)
    | _ => .ok .content

/-- The target behind the blank after a tag's name, outside quotes. -/
def Target.ofAttributes (tag : String) (attributes : List Char) : Except CutError Target := do
  let typed ← lastWord attributes
  if typed.any (fun c => c == '=' || c == '"' || c == '\'') ||
      (trimEnd attributes).getLast? == some '=' then
    return .content
  else return .attributeName tag (String.ofList typed) (attributeNames attributes)

/-- The target in an open tag, given what follows its angle bracket. -/
def Target.ofOpenTag (fragment : List Char) : Except CutError Target :=
  let tag := fragment.takeWhile (!isBlank ·)
  match fragment.dropWhile (!isBlank ·) with
  | [] => .ok (.tagName (String.ofList fragment))
  | attributes =>
    if endsInQuotes fragment then Target.ofValue (String.ofList tag) attributes
    else Target.ofAttributes (String.ofList tag) attributes

/-- Declarations, instructions and script marks begin with one of these. -/
def isDeclarationStart (c : Char) : Bool := c == '!' || c == '?' || c == '%'

/-- The target at the end of a text, given what follows the last angle bracket that opens. -/
def Target.ofFragment (fragment : List Char) : Except CutError Target :=
  if !endsInQuotes fragment && fragment.contains '>' then .ok .content
  else
    match fragment with
    | [] => .ok (.tagName "")
    | first :: rest =>
      if isDeclarationStart first then .ok .content
      else if first = '/' then .ok (.closingTag (String.ofList (trim rest)))
      else Target.ofOpenTag (first :: rest)

/-- The target at the end of a text. -/
def Target.of (before : List Char) : Except CutError Target :=
  if opensLast "<!--".toList "-->".toList before then .ok .content
  else
    match breakLast (· == '<') before with
    | none => .ok .content
    | some (_, _, fragment) => Target.ofFragment fragment

/-- The languages of code inside markup. -/
inductive Script where
  | php
  | erb
  deriving DecidableEq, Repr

def Script.opening : Script → String
  | .php => "<?"
  | .erb => "<%"

def Script.closing : Script → String
  | .php => "?>"
  | .erb => "%>"

/-- The text ends inside code. -/
def Script.isOpen (script : Script) (before : List Char) : Bool :=
  opensLast script.opening.toList script.closing.toList before

/-- The texts from each opening angle bracket to the next closing one. `inside` is the text read so far,
backwards, when a bracket is open. -/
def tagTextsFrom : (inside : Option (List Char)) → List Char → List (List Char)
  | _, [] => []
  | none, c :: cs => tagTextsFrom (if c = '<' then some [] else none) cs
  | some text, c :: cs =>
    if c = '>' then text.reverse :: tagTextsFrom none cs else tagTextsFrom (some (c :: text)) cs

def tagTexts (text : List Char) : List (List Char) := tagTextsFrom none text

/-- The open elements after one more tag, innermost first. A closing tag closes the innermost element of
its name and all inside it; one that matches nothing changes nothing. -/
def Dictionary.afterTag (d : Dictionary) (opened : List String) (text : List Char) : List String :=
  match text with
  | [] => opened
  | first :: rest =>
    if isDeclarationStart first then opened
    else if first = '/' then
      let name := String.ofList ((trim rest).map Char.toLower)
      if opened.contains name then (opened.dropWhile (· ≠ name)).drop 1 else opened
    else
      let name := String.ofList (((first :: rest).takeWhile isNameChar).map Char.toLower)
      if name = "" || (trimEnd (first :: rest)).getLast? == some '/' || d.isVoid name then opened
      else name :: opened

/-- The elements that are open at the end of a text, innermost first. -/
def Dictionary.openElements (d : Dictionary) (before : List Char) : List String :=
  (tagTexts before).foldl d.afterTag []

end Typeahead.Markup
