import Typeahead.Lookup.Code
import Typeahead.Markup.Completion

namespace Typeahead

open Text Lookup

inductive Language where
  | csharp
  | html
  | php
  | erb
  | css
  deriving DecidableEq, Repr

namespace Language

/-- In the order in which they are asked. -/
def all : List Language := [.csharp, .html, .php, .erb, .css]

def id : Language → String
  | .csharp => "csharp"
  | .html => "html"
  | .php => "php"
  | .erb => "erb"
  | .css => "css"

/-- The names under which clients know a language. -/
def names : Language → List String
  | .csharp => ["csharp", "cs"]
  | .html => ["html", "xhtml"]
  | .php => ["php"]
  | .erb => ["erb", "rhtml", "html.erb"]
  | .css => ["css"]

def find? (name : String) : Option Language := all.find? (·.names.contains name)

/-- The language name for a path, by what follows its last dot. -/
def nameOfPath? (path : String) : Option String := do
  let (_, _, ending) ← breakLast (· == '.') path.toList
  match String.ofList (ending.map Char.toLower) with
  | "cs" => some "csharp"
  | "html" | "htm" => some "html"
  | "xhtml" => some "xhtml"
  | "php" => some "php"
  | "erb" | "rhtml" => some "erb"
  | "css" => some "css"
  | _ => none

/-- Characters after which a list comes up by itself. -/
def triggers : Language → List String
  | .csharp => [".", " "]
  | .html | .php | .erb => ["<", "/", " ", "\"", ":"]
  | .css => [":", " "]

def allTriggers : List String := keepFirst (all.flatMap triggers)

/-- Completion at a caret in a style sheet; none inside a character. -/
def completeSheet (source : List Char) (caret : Nat) : Except CutError Response :=
  match cut (min caret (utf8Length source)) source with
  | .ok (before, _) => Markup.completeStyle before
  | .error _ => .ok .notApplicable

/-- Completion at a caret in a document of the language. -/
def complete (helper : Option EmbeddedHelper) (catalog : Catalog) (nonPublic : Bool)
    (source : List Char) (caret : Nat) : Language → Except CutError Response
  | .csharp => lookupCode helper catalog nonPublic source caret
  | .html => Markup.completeMarkup none source caret
  | .php => Markup.completeMarkup (some .php) source caret
  | .erb => Markup.completeMarkup (some .erb) source caret
  | .css => completeSheet source caret

end Language

end Typeahead
