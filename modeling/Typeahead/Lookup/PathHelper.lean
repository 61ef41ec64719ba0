import Typeahead.Files
import Typeahead.Lookup.Code

namespace Typeahead.Lookup

open Text

def isPathSeparator (c : Char) : Bool := c == '/' || c == '\\'

/-- A directory or file of a list. -/
def pathItem (t : FileTree) (directory : List String) (name : String) : Item :=
  (Item.named name .path "embedded_option").withTooltip
    (if t.isDirectory (directory ++ [name]) then "directory" else "file")

/-- The entries of a directory below the root. A path from the root of all files is not in the tree. -/
def directoryItems (t : FileTree) (directory : List Char) : List Item :=
  if directory.head? = some '/' then []
  else
    match t.follow? (FileTree.names directory) with
    | some path => (t.children path).map (pathItem t path)
    | none => []

/-- The helper that completes paths in a tree of files. -/
def pathHelper (t : FileTree) : EmbeddedHelper := fun marker typed =>
  if marker ≠ '$' then .notApplicable
  else
    let typed := trimStart typed
    let (directory, name) :=
      match breakLast isPathSeparator typed with
      | some (directory, _, name) => (directory, name)
      | none => ([], typed)
    { outcome := .ofItems (directoryItems t directory), lookAhead := String.ofList name }

end Typeahead.Lookup
