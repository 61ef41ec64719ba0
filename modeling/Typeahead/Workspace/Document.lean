import Typeahead.Text.Lines

namespace Typeahead.Workspace

open Text

/-- An open document. Its generation grows with every edit and with every request for completion. -/
structure Document where
  languageId : String
  version : Nat
  text : String
  generation : Nat := 0
  deriving DecidableEq, Repr

namespace Document

/-- The document with a new text. -/
def edit (d : Document) (version : Nat) (text : String) : Document :=
  { d with version, text, generation := d.generation + 1 }

/-- The document with one more request under way. -/
def request (d : Document) : Document := { d with generation := d.generation + 1 }

def offsetAt? (d : Document) (p : Position) : Option Nat := Text.offsetAt? d.text.toList p

def positionAt (d : Document) (offset : Nat) : Position := Text.positionAt d.text.toList offset

end Document

end Typeahead.Workspace
