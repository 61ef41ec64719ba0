import Typeahead.Lookup.Item
import Typeahead.Text.Offset

namespace Typeahead.Lookup

open Text

/-- The answer of one stage of a lookup. -/
inductive Outcome where
  /-- The stage does not apply here; the next one is asked. -/
  | notApplicable
  /-- The stage applies and finds nothing. -/
  | empty
  | resolved (items : List Item)
  deriving DecidableEq, Repr

namespace Outcome

def ofItems (items : List Item) : Outcome := if items.isEmpty then .empty else .resolved items

def isApplicable : Outcome → Bool
  | .notApplicable => false
  | _ => true

def items : Outcome → List Item
  | .resolved items => items
  | _ => []

/-- The first outcome when it applies, the second otherwise. -/
def orElse (first : Outcome) (second : Unit → Outcome) : Outcome :=
  if first.isApplicable then first else second ()

@[simp] theorem items_ofItems (list : List Item) : (ofItems list).items = list := by
  unfold ofItems; split
  · next h => simp only [List.isEmpty_iff] at h; simp [items, h]
  · rfl

@[simp] theorem isApplicable_ofItems (list : List Item) : (ofItems list).isApplicable = true := by
  unfold ofItems
  split <;> rfl

end Outcome

/-- A text to insert, with the place where the cursor lands. -/
structure Template where
  label : String
  text : String
  /-- A byte offset into the text. -/
  cursorOffset : Nat
  deriving DecidableEq, Repr

/-- Every dollar sign with a backslash in front of it. -/
def escapeDollars (cs : List Char) : List Char :=
  cs.flatMap fun c => if c = '$' then ['\\', '$'] else [c]

/-- The text with a marker at the cursor and its dollar signs escaped. -/
def Template.snippet (t : Template) : Except CutError String :=
  (cut (min t.cursorOffset (utf8Length t.text.toList)) t.text.toList).map fun (head, tail) =>
    String.ofList (escapeDollars head ++ ['$', '0'] ++ escapeDollars tail)

/-- The answer to a completion request. -/
structure Response where
  outcome : Outcome := .notApplicable
  /-- The text already typed that a chosen item replaces. -/
  lookAhead : String := ""
  templates : List Template := []
  deriving DecidableEq, Repr

/-- The answer where no lookup applies. -/
def Response.notApplicable : Response := {}

end Typeahead.Lookup
