import Typeahead.Lookup.Response
import Typeahead.Markup.StyleTable
import Typeahead.Markup.Target

namespace Typeahead.Markup

open Text Lookup

/-- What is typed at the end of a style sheet. -/
inductive StyleTarget where
  /-- A selector, a comment or a string. -/
  | none
  | property (typed : String)
  | value (property typed : String)
  deriving DecidableEq, Repr

/-- The text after the last blank or comma. The cut is made one byte behind the start of that character,
and has no result when the character is longer. -/
def lastValue (text : List Char) : Except CutError (List Char) :=
  match breakLast (fun c => isBlank c || c == ',') text with
  | .none => .ok text
  | some (_, c, typed) => afterFirstByte (c :: typed)

/-- The target at the end of a list of declarations. -/
def StyleTarget.ofDeclarations (body : List Char) : Except CutError StyleTarget :=
  if endsInQuotes body || opensLast "/*".toList "*/".toList body then .ok .none
  else
    let declaration := lastField (· == ';') body
    match breakFirst (· == ':') declaration with
    | .none => .ok (.property (String.ofList (trimStart declaration)))
    | some (name, _, text) => do
      return .value (String.ofList ((trim name).map Char.toLower)) (String.ofList (← lastValue text))

/-- The target at the end of a style sheet: only in the body of a rule. -/
def StyleTarget.of (before : List Char) : Except CutError StyleTarget :=
  match breakLast (fun c => c == '{' || c == '}') before with
  | some (_, '{', body) => StyleTarget.ofDeclarations body
  | _ => .ok .none

/-- `name: ;` with the cursor before the semicolon. -/
def propertyTemplate (name : String) : Template :=
  let text := name ++ ": ;"
  ⟨name, text, text.utf8ByteSize - 1⟩

def startsWith (typed name : String) : Bool := (typed.toList.map Char.toLower).isPrefixOf name.toList

def StyleTarget.respond : StyleTarget → Response
  | .none => .notApplicable
  | .property typed =>
    let names := (styleProperties.map (·.1)).filter (startsWith typed)
    { outcome := .ofItems (names.map (Item.named · .cssProperty "css"))
      lookAhead := typed
      templates := names.map propertyTemplate }
  | .value name typed =>
    match styleProperties.lookup name with
    | .none => .notApplicable
    | some values =>
      { outcome := .ofItems ((values.filter (startsWith typed)).map fun word =>
          (Item.named word .cssValue "css").withTooltip (name ++ ": " ++ word))
        lookAhead := typed }

/-- Completion at the end of a style sheet. -/
def completeStyle (before : List Char) : Except CutError Response :=
  (StyleTarget.of before).map (·.respond)

end Typeahead.Markup
