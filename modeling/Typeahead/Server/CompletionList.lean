import Typeahead.Lookup.Pattern
import Typeahead.Lookup.Response
import Typeahead.Workspace.Document

namespace Typeahead.Server

open Text Lookup Workspace

/-- The text between two positions of a document. -/
structure Range where
  start : Position
  stop : Position
  deriving DecidableEq, Repr

/-- An entry of the list. Choosing it replaces the range by the new text. -/
structure Entry where
  label : String
  /-- What sort of thing it is, in the client's numbers. -/
  kind : Nat
  detail : Option String
  documentation : Option String
  sortText : String
  filterText : Option String
  /-- The new text marks where the cursor lands. -/
  isSnippet : Bool
  newText : String
  range : Range
  deriving DecidableEq, Repr

/-- The items that fit the typed text in the order of their discovery, each with the template of its label if there is
one, and then the templates that no item claimed. -/
structure CompletionList where
  isIncomplete : Bool
  entries : List Entry
  deriving DecidableEq, Repr

/-- How many items a list has at most. -/
def maxItems : Nat := 200

def kindOf : Category → Nat
  | .classType => 7
  | .interfaceType => 8
  | .enumType => 13
  | .delegateType => 18
  | .valueType => 22
  | .property => 10
  | .method | .methodOverload => 2
  | .extensionMethod => 3
  | .field => 5
  | .constant => 21
  | .event => 23
  | .namespaceName => 9
  | .localVariable => 6
  | .tag => 14
  | .attributeName | .cssProperty => 10
  | .attributeValue | .cssValue => 12
  | .path => 17

def snippetKind : Nat := 15

/-- The rank in at least five digits. -/
def sortTextOf (rank : Nat) : String :=
  let digits := toString rank
  String.ofList (List.replicate (5 - digits.length) '0') ++ digits

/-- The entry of an item; a template takes the place of the item's own text. -/
def Entry.ofItem (item : Item) (rank : Nat) (range : Range) (template : Option Template) :
    Except CutError Entry := do
  let newText ← match template with
    | some t => t.snippet
    | none => .ok item.insertText
  return {
    label := item.displayText
    kind := kindOf item.category
    detail := item.tooltip
    documentation := if 1 < item.overloads.length then some ("\n".intercalate item.overloads) else none
    sortText := sortTextOf rank
    filterText := some item.displayText
    isSnippet := template.isSome
    newText
    range }

/-- The entry of a template that no item claimed. -/
def Entry.ofTemplate (template : Template) (rank : Nat) (range : Range) : Except CutError Entry := do
  return {
    label := template.label
    kind := snippetKind
    detail := some template.text
    documentation := none
    sortText := sortTextOf rank
    filterText := none
    isSnippet := true
    newText := ← template.snippet
    range }

/-- The first template of a label, and the list without it. -/
def claim (label : String) : List Template → Option Template × List Template
  | [] => (none, [])
  | t :: ts =>
    if t.label = label then (some t, ts)
    else
      let (claimed, rest) := claim label ts
      (claimed, t :: rest)

/-- Each item with the template it claims, and the templates left over. -/
def pair : List Item → List Template → List (Item × Option Template) × List Template
  | [], templates => ([], templates)
  | item :: items, templates =>
    let (claimed, rest) := claim item.displayText templates
    let (paired, left) := pair items rest
    ((item, claimed) :: paired, left)

/-- The list for a response at a caret. -/
def CompletionList.of (d : Document) (caret : Nat) (r : Response) : Except CutError CompletionList := do
  let range : Range := ⟨d.positionAt (caret - r.lookAhead.utf8ByteSize), d.positionAt caret⟩
  let candidates := filterByLookAhead r.lookAhead r.outcome.items
  let (paired, left) := pair (candidates.take maxItems) r.templates
  let items ← paired.zipIdx.mapM fun ((item, template), rank) => Entry.ofItem item rank range template
  let snippets ← left.zipIdx.mapM fun (template, rank) =>
    Entry.ofTemplate template (paired.length + rank) range
  return { isIncomplete := maxItems < candidates.length, entries := items ++ snippets }

end Typeahead.Server
