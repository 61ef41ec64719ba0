import Typeahead.Markup.Stylesheet

namespace Typeahead.Markup

open Text Lookup

def namesStarting (typed : String) (names : List String) : List String :=
  names.filter fun name => startsWithIgnoringCase name.toList typed.toList

/-- The rest of a tag: a void element ends as its dialect asks, any other gets its closing tag with the
cursor before it. -/
def tagTemplate (dialect : Dialect) (tag : TagSpec) : Template :=
  if tag.isVoid then
    let text := tag.name ++ match dialect with
      | .html5 => ">"
      | .xhtml => " />"
    ⟨tag.name, text, text.utf8ByteSize⟩
  else
    let opening :=
      if tag.name = "script" ∧ dialect = .xhtml then "script type=\"text/javascript\">"
      else tag.name ++ ">"
    ⟨tag.name, opening ++ "</" ++ tag.name ++ ">", opening.utf8ByteSize⟩

def attributeTemplate (name : String) : Template :=
  let text := name ++ "=\"\""
  ⟨name, text, text.utf8ByteSize - 1⟩

namespace Dictionary

def tagNames (d : Dictionary) (typed : String) : Response :=
  let tags := d.tags.filter fun t => startsWithIgnoringCase t.name.toList typed.toList
  { outcome := .ofItems (tags.map fun t => Item.named t.name .tag "markup")
    lookAhead := typed
    templates := tags.map (tagTemplate d.dialect) }

/-- Closing tags for the elements that are open before the tag being typed. -/
def closingTags (d : Dictionary) (before : List Char) (typed : String) : Response :=
  let before := ((splitLast "</".toList before).map (·.1)).getD before
  let names := namesStarting typed (d.openElements before)
  { outcome := .ofItems (names.map fun name => { Item.named name .tag "markup" with insertText := name ++ ">" })
    lookAhead := typed }

/-- The attributes of a tag that it does not have yet. -/
def attributeItems (d : Dictionary) (tag typed : String) (present : List String) : Response :=
  let isPresent (name : String) : Bool := present.any fun p => equalIgnoringCase p.toList name.toList
  let names := namesStarting typed ((d.attributesFor tag).filter (!isPresent ·))
  { outcome := .ofItems (names.map fun name =>
      (Item.named name .attributeName "markup").withTooltip ("<" ++ tag ++ "> attribute"))
    lookAhead := typed
    templates := names.map attributeTemplate }

def valueItems (d : Dictionary) (tag attr typed : String) : Response :=
  match d.valuesFor tag attr with
  | [] => .notApplicable
  | values =>
    { outcome := .ofItems ((namesStarting typed values).map (Item.named · .attributeValue "markup"))
      lookAhead := typed }

end Dictionary

/-- The text of the style sheet that is open at the end of a document. -/
def openStyle? (before : List Char) : Option (List Char) :=
  let lower := before.map Char.toLower
  if !opensLast "<style".toList "</style".toList lower then none
  else
    match splitLast "<style".toList lower with
    | none => none
    | some (earlier, _) => (breakFirst (· == '>') (before.drop earlier.length)).map fun (_, _, sheet) => sheet

/-- Completion for a target; `before` is all text before the caret. -/
def Dictionary.respond (d : Dictionary) (before : List Char) : Target → Except CutError Response
  | .content => .ok .notApplicable
  | .tagName typed => .ok (d.tagNames typed)
  | .closingTag typed => .ok (d.closingTags before typed)
  | .attributeName tag typed present => .ok (d.attributeItems tag typed present)
  | .attributeValue tag attr typed =>
    if equalIgnoringCase attr.toList "style".toList then
      (StyleTarget.ofDeclarations typed.toList).map (·.respond)
    else .ok (d.valueItems tag attr typed)

/-- Completion at a caret in markup. There is none inside code of the document's script. -/
def completeMarkup (script : Option Script) (source : List Char) (caret : Nat) : Except CutError Response := do
  let (before, _) ← cut (floorBoundary caret source) source
  if script.any (·.isOpen before) then return .notApplicable
  else
    match openStyle? before with
    | some sheet => completeStyle sheet
    | none => Dictionary.respond (.of (.of source)) before (← Target.of before)

end Typeahead.Markup
