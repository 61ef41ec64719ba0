import Typeahead.Catalog.Resolution

namespace Typeahead.Catalog

open Text

/-- The namespaces the catalog knows by name, in order of discovery. -/
def declaredNamespaces (c : Catalog) : List String :=
  c.references.namespaces ++
    (c.references.workspace.filterMap c.assembly?).flatMap fun a => a.types.filterMap (·.namespaceName)

/-- All namespaces, a containing one before those inside it. -/
def namespaces (c : Catalog) : List String :=
  keepFirst <| (c.declaredNamespaces.flatMap fun name =>
    (dottedPrefixes name.toList).map String.ofList).filter (· ≠ "")

def isNamespace (c : Catalog) (name : String) : Bool := c.namespaces.contains name

/-- The namespaces that no other contains. -/
def rootNamespaces (c : Catalog) : List String := c.namespaces.filter (!·.toList.contains '.')

/-- The last parts of the namespaces directly inside one. -/
def childNamespaces (c : Catalog) (parent : String) : List String :=
  c.namespaces.filterMap fun name =>
    match dropStart? (parent.toList ++ ['.']) name.toList with
    | some rest => if rest.contains '.' then none else some (String.ofList rest)
    | none => none

end Typeahead.Catalog
