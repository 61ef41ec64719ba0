import Typeahead.Catalog.Resolution
import Typeahead.Catalog.Scan

namespace Typeahead.Server

open Catalog

/-- What a client can configure. -/
structure Settings where
  /-- Directories with metadata files. -/
  metadataPaths : List String := []
  /-- Assemblies bound to namespaces, in the order of the namespaces. -/
  namespaceAssemblies : List (String × List String) := []
  /-- Assemblies that serve every namespace. -/
  workspaceAssemblies : List String := []
  includeCoreLibrary : Bool := true
  /-- Whether members of library types that are not public are shown. -/
  allowNonPublic : Bool := false
  deriving DecidableEq, Repr

/-- Enters a value under its key in order, in place of any other. -/
def insertSorted (key : String) (names : List String) :
    List (String × List String) → List (String × List String)
  | [] => [(key, names)]
  | (other, standing) :: more =>
    if key = other then (key, names) :: more
    else if key < other then (key, names) :: (other, standing) :: more
    else (other, standing) :: insertSorted key names more

def readBindings? : Json → Option (List (String × List String))
  | .object fields =>
    fields.foldlM (fun bindings (key, value) => do
      return insertSorted key (← readList? readString? value) bindings) []
  | _ => none

def settingNames : List String := [
  "metadataPaths", "namespaceAssemblies", "workspaceAssemblies", "includeCorlib", "allowNonPublic"]

namespace Settings

/-- Every setting may be missing, none may be of another kind. -/
def ofJson? (json : Json) : Option Settings := do
  match ← slots? .allowed settingNames json with
  | [paths, bindings, workspace, core, nonPublic] =>
    return {
      metadataPaths := ← optional? [] (readList? readString?) paths
      namespaceAssemblies := ← optional? [] readBindings? bindings
      workspaceAssemblies := ← optional? [] (readList? readString?) workspace
      includeCoreLibrary := ← optional? true readBool? core
      allowNonPublic := ← optional? false readBool? nonPublic }
  | _ => none

/-- The settings in a client's message: under their own field, or the message itself. -/
def ofMessage? (json : Json) : Option Settings :=
  match json with
  | .object fields =>
    match fields.reverse.lookup "codeAssist" with
    | some inner => ofJson? inner
    | none => ofJson? json
  | _ => ofJson? json

def references (s : Settings) : References :=
  let start : References := if s.includeCoreLibrary then ({} : References).bindAssembly coreLibrary else {}
  let bound := s.namespaceAssemblies.foldl
    (fun r (name, assemblies) => assemblies.foldl (·.bind name ·) r) start
  s.workspaceAssemblies.foldl (·.addWorkspace ·) bound

def loader (s : Settings) (files : FileTree) : Loader :=
  (if s.includeCoreLibrary then [.core] else []) ++
    if s.metadataPaths.isEmpty then [] else [.directory (scan files s.metadataPaths)]

/-- The catalog of the settings; metadata directories are scanned now. -/
def catalog (s : Settings) (files : FileTree) : Catalog := ⟨s.references, s.loader files⟩

end Settings

end Typeahead.Server
