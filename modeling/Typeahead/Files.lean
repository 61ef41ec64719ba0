import Typeahead.Text.Dotted
import Typeahead.Text.Place

namespace Typeahead

open Text

/-- The directory that paths are completed in. -/
structure FileTree where
  /-- How the directory at the root is written in paths. -/
  root : String
  files : List (List String × String) := []
  /-- Directories besides those that hold a file. -/
  directories : List (List String) := []
  deriving Repr

namespace FileTree

/-- The names in a path; doubled and trailing separators do not count. -/
def names (path : List Char) : List String :=
  ((fields (· == '/') path).filter (!·.isEmpty)).map String.ofList

/-- The tree of the paths with their contents; a path that ends in a separator is a directory. -/
def ofPaths (root : String) (paths : List (String × String)) : FileTree :=
  let isDirectoryPath (path : String) : Bool := path.toList.getLast? == some '/'
  { root
    files := (paths.filter (!isDirectoryPath ·.1)).map fun (path, content) => (names path.toList, content)
    directories := (paths.filter (isDirectoryPath ·.1)).map fun (path, _) => names path.toList }

/-- What a file holds; the last content written to it. -/
def content? (t : FileTree) (path : List String) : Option String := t.files.reverse.lookup path

def isDirectory (t : FileTree) (path : List String) : Bool :=
  path.isEmpty || t.directories.any path.isPrefixOf ||
    t.files.any fun (file, _) => path.isPrefixOf file && file != path

/-- Follows one name from a path. The parent of the root is not in the tree. -/
def step? (t : FileTree) (path : List String) (name : String) : Option (List String) :=
  if !t.isDirectory path then none
  else if name = "." then some path
  else if name = ".." then if path.isEmpty then none else some path.dropLast
  else
    let next := path ++ [name]
    if t.isDirectory next || (t.content? next).isSome then some next else none

/-- Follows the names of a path from the root. -/
def follow? (t : FileTree) (path : List String) : Option (List String) := path.foldlM t.step? []

/-- The place in the tree of a path that begins with the root as it is written. -/
def locate? (t : FileTree) (path : String) : Option (List String) :=
  match dropStart? t.root.toList path.toList with
  | some [] => some []
  | some ('/' :: rest) => t.follow? (names ('/' :: rest))
  | _ => none

/-- The names directly inside a directory, in order. -/
def children (t : FileTree) (path : List String) : List String :=
  let inside (other : List String) : Option String :=
    if path.isPrefixOf other then other[path.length]? else none
  (keepFirst ((t.files.map (·.1) ++ t.directories).filterMap inside)).mergeSort fun a b => a ≤ b

/-- The order of a walk that takes the names in each directory in their order. -/
def isEarlier : List String → List String → Bool
  | [], _ => true
  | _ :: _, [] => false
  | a :: as, b :: bs => if a = b then isEarlier as bs else a ≤ b

/-- The files at a path or below it, in the order of a walk. -/
def filesBelow (t : FileTree) (path : List String) : List (List String) :=
  ((t.files.map (·.1)).filter path.isPrefixOf).mergeSort isEarlier

end FileTree

end Typeahead
