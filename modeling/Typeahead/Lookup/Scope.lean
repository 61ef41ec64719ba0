import Typeahead.Catalog.Members
import Typeahead.Source.Context

namespace Typeahead.Lookup

open Text Catalog Source

/-- The catalog, the code around the caret, and whether members that are not public count. -/
structure Scope where
  catalog : Catalog
  context : Context
  nonPublic : Bool

namespace Scope

/-- The type that a written reference means at the caret. -/
def resolve? (s : Scope) (written : String) : Option ResolvedType :=
  s.catalog.resolve? (s.context.expandAlias (String.ofList (trim written.toList))) s.context.qualifiers

/-- The type of a member in terms of its declaring type. -/
def typeOf? (s : Scope) (f : Found) : Option ResolvedType :=
  s.catalog.resolveMember? f.typeName f.declaring s.context.qualifiers

/-- The types of all namespaces in scope; extension methods come from the containers among them. -/
def importedTypes (s : Scope) : List TypeInfo := s.catalog.typesIn s.context.importedNamespaces

/-- The base types of the type around the caret that the catalog knows. -/
def baseTypes (s : Scope) : List ResolvedType := s.context.baseTypes.filterMap s.resolve?

/-- The types whose statics are imported. -/
def staticImports (s : Scope) : List ResolvedType := s.context.staticImports.filterMap s.resolve?

/-- The indexer property of a type. -/
def indexer? (s : Scope) (t : ResolvedType) : Option Found :=
  ["Item", "Chars"].findSome? fun name =>
    (s.catalog.findMember? t name .instanceMembers s.nonPublic).filter (·.member.kind == .property)

/-- The type of `x[i]` for `x` of a type: the element of an array, the type of the indexer property, or
the last generic argument. -/
def elementOf? (s : Scope) (t : ResolvedType) : Option ResolvedType :=
  match t.element with
  | some element => s.resolve? element.text
  | none =>
    match s.indexer? t with
    | some found => s.typeOf? found
    | none => t.arguments.getLast?.bind fun last => s.resolve? last.text

/-- The type after a number of indexers. -/
def applyIndex? (s : Scope) : Nat → ResolvedType → Option ResolvedType
  | 0, t => some t
  | depth + 1, t => (s.elementOf? t).bind (s.applyIndex? depth)

/-- What an access to a type or an instance of it lists: its members, and the extension methods that an
instance takes. -/
def enumerate (s : Scope) (t : ResolvedType) (mode : BindingMode) (nonPublic : Bool) : List Item :=
  let extensions := if mode = .typeStatics then [] else s.catalog.extensionItems s.importedTypes t
  (CandidateSet.ofList (s.catalog.reachableItems t mode nonPublic false ++ extensions)).items

end Scope

end Typeahead.Lookup
