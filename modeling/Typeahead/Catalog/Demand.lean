import Typeahead.Catalog.Cache
import Typeahead.Catalog.Members

namespace Typeahead.Catalog

open Text

/-- A question to the catalog, as far as loading is concerned. -/
inductive Query where
  | find (fullName : String)
  | resolve (written : String) (qualifiers : List String)
  | resolveMember (written : TypeName) (declaring : ResolvedType) (qualifiers : List String)
  | typesIn (namespaces : List String)
  | ancestry (t : ResolvedType)
  | members (t : ResolvedType) (mode : BindingMode)
  | supertypes (t : ResolvedType)
  /-- Any question about the tree of namespaces, and the loading of everything in advance. -/
  | workspace

def demandOfFind (c : Catalog) (fullName : String) : List String := c.assemblyNames [namespaceOf fullName]

/-- Names are looked for one after the other until one is found. -/
def demandOfSearch (c : Catalog) : List String → List String
  | [] => []
  | name :: more =>
    c.demandOfFind name ++ if (c.findType? name).isSome then [] else c.demandOfSearch more

def demandOfResolve (c : Catalog) (written : String) (qualifiers : List String) : List String :=
  let reference : TypeName := ⟨String.ofList (trim written.toList)⟩
  if reference.text = "" then []
  else if reference.arrayElement?.isSome then c.demandOfFind arrayType
  else c.demandOfSearch (candidates reference.canonicalBase qualifiers)

def demandOfAncestry (c : Catalog) (t : ResolvedType) : List String :=
  (c.ancestry t).flatMap fun ancestor =>
    (parents ancestor).flatMap fun parent => c.demandOfFind parent.canonicalBase

/-- The assemblies a question asks for. -/
def demand (c : Catalog) : Query → List String
  | .find fullName => c.demandOfFind fullName
  | .resolve written qualifiers => c.demandOfResolve written qualifiers
  | .resolveMember written declaring qualifiers =>
    c.demandOfResolve written.text qualifiers ++
      if (c.resolve? written.text qualifiers).isSome then []
      else c.demandOfFind (declaring.fullName ++ "+" ++ written.canonicalBase)
  | .typesIn namespaces => c.assemblyNames namespaces
  | .ancestry t => c.demandOfAncestry t
  | .members t mode =>
    c.demandOfAncestry t ++ if mode = .typeStatics then c.assemblyNames [t.info.namespaceText] else []
  | .supertypes t =>
    ((c.supertypeNames t).filter fun name => name ≠ objectType && name ≠ t.fullName).flatMap c.demandOfFind
  | .workspace => keepFirst c.references.workspace

/-- The cache after questions. -/
def load (c : Catalog) (cache : Cache) (queries : List Query) : Cache :=
  cache.getAll c.loader (queries.flatMap c.demand)

end Typeahead.Catalog
