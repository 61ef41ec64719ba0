import Typeahead.Catalog.Loader
import Typeahead.Catalog.References
import Typeahead.Text.Dotted

namespace Typeahead

open Catalog Text

/-- Compiled code as far as it is known: which assemblies serve which namespace, and where they come
from. -/
structure Catalog where
  references : References
  loader : Loader

namespace Catalog

/-- A type as referred to in some place: the arguments written there, and the element type of an array. -/
structure ResolvedType where
  info : TypeInfo
  arguments : List TypeName := []
  element : Option TypeName := none
  deriving DecidableEq, Repr

namespace ResolvedType

def fullName (t : ResolvedType) : String := t.info.fullName

def isVoid (t : ResolvedType) : Bool := t.fullName == voidType

/-- The text with the type's generic parameters replaced by the arguments. -/
def substitute (t : ResolvedType) (text : String) : TypeName :=
  TypeName.substitute ⟨text⟩ t.info.genericParameters t.arguments

end ResolvedType

/-- The type of a full name; the last one when the assembly declares several. -/
def Assembly.find? (a : Assembly) (fullName : String) : Option TypeInfo :=
  (a.types.filter (·.fullName == fullName)).getLast?

/-- The namespace of a full name: what stands before the last dot of its outermost type. -/
def namespaceOf (fullName : String) : String :=
  match breakLast (· == '.') (fullName.toList.takeWhile (· ≠ '+')) with
  | some (name, _, _) => String.ofList name
  | none => ""

/-- The dotted name with its last dots, one more each time, written as the separator of nested types.
The text before the dots still to be replaced is held backwards. -/
def nestings (later : List Char) : List Char → List (List Char)
  | [] => []
  | c :: before =>
    if c = '.' then (before.reverse ++ '+' :: later) :: nestings ('+' :: later) before
    else nestings (c :: later) before

/-- `A.B.C`, `A.B+C`, `A+B+C`. -/
def spellings (name : String) : List String :=
  name :: (nestings [] name.toList.reverse).map String.ofList

/-- The name inside a namespace; the empty namespace adds nothing. -/
def qualify (namespaceName name : String) : String :=
  if namespaceName = "" then name else namespaceName ++ "." ++ name

def assembly? (c : Catalog) (name : String) : Option Assembly := (c.loader.load name).toOption

/-- The names of the assemblies bound to any of the namespaces, and of the workspace assemblies. -/
def assemblyNames (c : Catalog) (namespaces : List String) : List String :=
  keepFirst (namespaces.flatMap c.references.assembliesFor ++ c.references.workspace)

def assembliesFor (c : Catalog) (namespaces : List String) : List Assembly :=
  (c.assemblyNames namespaces).filterMap c.assembly?

/-- The type with exactly this full name. -/
def findType? (c : Catalog) (fullName : String) : Option TypeInfo :=
  (c.assembliesFor [namespaceOf fullName]).findSome? (·.find? fullName)

/-- The full names of all types the loader holds. -/
def typeNames (c : Catalog) : List String :=
  c.loader.assemblies.flatMap fun a => a.types.map (·.fullName)

theorem fullName_of_findType? {c : Catalog} {name : String} {info : TypeInfo}
    (h : c.findType? name = some info) : info.fullName = name := by
  obtain ⟨a, _, found⟩ := List.exists_of_findSome?_eq_some h
  have := (List.mem_filter.mp (List.mem_of_getLast? found)).2
  simpa using this

theorem mem_typeNames_of_findType? {c : Catalog} {name : String} {info : TypeInfo}
    (h : c.findType? name = some info) : name ∈ c.typeNames := by
  have same := fullName_of_findType? h
  obtain ⟨a, listed, found⟩ := List.exists_of_findSome?_eq_some h
  obtain ⟨assemblyName, _, loaded⟩ := List.mem_filterMap.mp listed
  refine List.mem_flatMap.mpr ⟨a, ?_, List.mem_map.mpr ⟨info, ?_, same⟩⟩
  · unfold assembly? at loaded
    cases run : c.loader.load assemblyName with
    | error e => rw [run] at loaded; simp [Except.toOption] at loaded
    | ok b =>
      rw [run] at loaded
      simp only [Except.toOption, Option.some.injEq] at loaded
      exact loaded ▸ Loader.mem_assemblies_of_load run
  · exact (List.mem_filter.mp (List.mem_of_getLast? found)).1

/-- The full names tried for a base name, in order. -/
def candidates (base : String) (qualifiers : List String) : List String :=
  qualifiers.flatMap fun q => spellings (qualify q base)

/-- The type that a written reference means under the qualifiers. -/
def resolve? (c : Catalog) (written : String) (qualifiers : List String) : Option ResolvedType :=
  let reference : TypeName := ⟨String.ofList (trim written.toList)⟩
  if reference.text = "" then none
  else
    match reference.arrayElement? with
    | some element => (c.findType? arrayType).map fun info => { info, element := some element }
    | none =>
      ((candidates reference.canonicalBase qualifiers).findSome? c.findType?).map fun info =>
        { info, arguments := reference.arguments }

/-- The type of a member, as written on its declaring type: as any reference, or else as a type nested
in the declaring one. -/
def resolveMember? (c : Catalog) (written : TypeName) (declaring : ResolvedType)
    (qualifiers : List String) : Option ResolvedType :=
  (c.resolve? written.text qualifiers).or <|
    (c.findType? (declaring.fullName ++ "+" ++ written.canonicalBase)).map fun info =>
      { info, arguments := written.arguments }

/-- The types without `later` ones of a full name that came before. -/
def distinctTypes : (seen : List String) → List TypeInfo → List TypeInfo
  | _, [] => []
  | seen, t :: ts =>
    if seen.contains t.fullName then distinctTypes seen ts
    else t :: distinctTypes (t.fullName :: seen) ts

/-- The public types declared directly in any of the namespaces. -/
def typesIn (c : Catalog) (namespaces : List String) : List TypeInfo :=
  distinctTypes [] <| ((c.assembliesFor namespaces).flatMap (·.types)).filter fun t =>
    namespaces.contains t.namespaceText && t.isPublic && !t.isNested

end Catalog

end Typeahead
