import Typeahead.Catalog.Metadata

namespace Typeahead.Catalog

/-- A namespace and the assemblies bound to it. -/
structure Binding where
  namespaceName : String
  assemblies : List String
  deriving DecidableEq, Repr

/-- Which assemblies serve which namespace, in the order of their first binding. The workspace assemblies serve every
namespace. -/
structure References where
  bindings : List Binding := []
  workspace : List String := []
  deriving DecidableEq, Repr

/-- The list with the name at its end, unless it holds the name already. -/
def addName (name : String) (names : List String) : List String :=
  if names.contains name then names else names ++ [name]

def bindIn (namespaceName assembly : String) : List Binding → List Binding
  | [] => [⟨namespaceName, [assembly]⟩]
  | b :: bs =>
    if b.namespaceName = namespaceName then { b with assemblies := addName assembly b.assemblies } :: bs
    else b :: bindIn namespaceName assembly bs

namespace References

def bind (r : References) (namespaceName assembly : String) : References :=
  { r with bindings := bindIn namespaceName assembly r.bindings }

def addWorkspace (r : References) (assembly : String) : References :=
  { r with workspace := addName assembly r.workspace }

/-- Binds every namespace in which the assembly declares a type to the assembly. -/
def bindAssembly (r : References) (a : Assembly) : References :=
  (a.types.filterMap (·.namespaceName)).foldl (fun r name => r.bind name a.name) r

def assembliesFor (r : References) (namespaceName : String) : List String :=
  ((r.bindings.find? (·.namespaceName == namespaceName)).map (·.assemblies)).getD []

def namespaces (r : References) : List String := r.bindings.map (·.namespaceName)

end References

end Typeahead.Catalog
