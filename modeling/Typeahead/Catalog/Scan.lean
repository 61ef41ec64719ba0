import Typeahead.Catalog.Loader
import Typeahead.Catalog.MetadataJson
import Typeahead.Files
import Typeahead.Json.Reader

namespace Typeahead.Catalog

open Text

/-- What stands before the ending of a metadata file's name. -/
def assemblyOfFile? (name : String) : Option String :=
  match breakLast (· == '.') name.toList with
  | some (stem, _, ending) =>
    if !stem.isEmpty && ending == "json".toList then some (String.ofList stem) else none
  | none => none

/-- A path with names after it. -/
def joinPath (path : String) (names : List String) : String :=
  if names.isEmpty then path
  else
    let separator := if path.toList.getLast? = some '/' then "" else "/"
    path ++ separator ++ "/".intercalate names

def readMetadata? (text : String) : Option Assembly :=
  (Json.parse? text).bind (Assembly.ofJson? .refused)

/-- The metadata files in a directory and below it. -/
def scanDirectory (t : FileTree) (path : String) : List MetadataFile :=
  match t.locate? path with
  | none => []
  | some place =>
    (t.filesBelow place).filterMap fun file => do
      let assembly ← assemblyOfFile? (← file.getLast?)
      return {
        assembly
        path := joinPath path (file.drop place.length)
        content := (t.content? file).bind readMetadata? }

/-- The metadata files of several directories, in their order. -/
def scan (t : FileTree) (paths : List String) : List MetadataFile := paths.flatMap (scanDirectory t)

end Typeahead.Catalog
