import Typeahead.Catalog.Ancestry

namespace Typeahead.Catalog

open Text Lookup

/-- Which members an access reaches. -/
inductive BindingMode where
  /-- Statics of the type itself, and its nested types. -/
  | typeStatics
  | instanceMembers
  /-- Instance members and statics, inherited ones included. -/
  | allMembers
  deriving DecidableEq, Repr

def BindingMode.allows (mode : BindingMode) (isStatic : Bool) : Bool :=
  match mode with
  | .typeStatics => isStatic
  | .instanceMembers => !isStatic
  | .allMembers => true

/-- The reach of a member declared `depth` steps up the ancestry. -/
def Reach.at (depth : Nat) (inherited : Bool) : Reach :=
  if inherited then .subclass else if depth = 0 then .declared else .base

/-- A member together with the type that declares it. -/
structure Found where
  member : MemberInfo
  declaring : ResolvedType
  deriving DecidableEq, Repr

/-- The member's type in terms of the use of the declaring type. -/
def Found.typeName (f : Found) : TypeName := f.declaring.substitute f.member.typeName

/-- The ancestry with the number of each type in it. -/
def numberedAncestry (c : Catalog) (t : ResolvedType) : List (Nat × ResolvedType) :=
  (c.ancestry t).zipIdx.map fun (ancestor, depth) => (depth, ancestor)

/-- Whether a list shows the member of a type's ancestor. An enum shows its values alone. -/
def lists (receiver : TypeInfo) (mode : BindingMode) (nonPublic inherited : Bool) (depth : Nat)
    (m : MemberInfo) : Bool :=
  let isEnum := receiver.kind == .enumType
  !(isEnum && depth != 0) && !m.isHidden && !(isEnum && m.kind == .method) && mode.allows m.isStatic &&
    !(mode == .typeStatics && depth != 0) && m.isVisible nonPublic (Reach.at depth inherited)

def memberItems (c : Catalog) (t : ResolvedType) (mode : BindingMode) (nonPublic inherited : Bool) :
    List Item :=
  (c.numberedAncestry t).flatMap fun (depth, ancestor) =>
    (ancestor.info.members.filter (lists t.info mode nonPublic inherited depth)).map (·.item false)

/-- The types nested directly in a type, in all assemblies of its namespace. -/
def nestedTypes (c : Catalog) (t : ResolvedType) : List TypeInfo :=
  ((c.assembliesFor [t.info.namespaceText]).flatMap (·.types)).filter fun nested =>
    nested.namespaceText == t.info.namespaceText &&
      (dropStart? (t.info.name.toList ++ ['+']) nested.name.toList).any fun rest => !rest.contains '+'

/-- Everything an access lists: members, and for the type itself its nested types. -/
def reachableItems (c : Catalog) (t : ResolvedType) (mode : BindingMode) (nonPublic inherited : Bool) :
    List Item :=
  c.memberItems t mode nonPublic inherited ++
    if mode = .typeStatics then
      ((c.nestedTypes t).filter fun nested => nested.isPublic || nonPublic).map (·.item)
    else []

/-- Whether a member answers to a name. -/
def answersTo (name : String) (mode : BindingMode) (nonPublic : Bool) (depth : Nat) (m : MemberInfo) :
    Bool :=
  m.name == name && !m.isHidden && mode.allows m.isStatic && m.isVisible nonPublic (Reach.at depth false)

/-- The first member of a name, from the type up its ancestry. -/
def findMember? (c : Catalog) (t : ResolvedType) (name : String) (mode : BindingMode)
    (nonPublic : Bool) : Option Found :=
  (c.numberedAncestry t).findSome? fun (depth, ancestor) =>
    (ancestor.info.members.find? (answersTo name mode nonPublic depth)).map (⟨·, ancestor⟩)

/-- Whether the first parameter of an extension method takes the type whose supertypes are given: a
generic parameter takes anything, an array parameter any array. -/
def takes (t : ResolvedType) (supertypes : List String) (m : MemberInfo) : Bool :=
  match m.parameters with
  | [] => false
  | first :: _ =>
    let written : TypeName := ⟨first.typeName⟩
    m.genericParameters.contains written.canonicalBase ||
      if written.isArray then t.element.isSome else supertypes.contains written.canonicalBase

/-- The extension methods in the containers that take the type. -/
def extensionItems (c : Catalog) (containers : List TypeInfo) (t : ResolvedType) : List Item :=
  let supertypes := c.supertypeNames t
  (containers.filter (·.isExtensionContainer)).flatMap fun container =>
    (container.members.filter fun m =>
      m.kind == .method && m.isStatic && m.isExtension && m.access == .publicAccess &&
        takes t supertypes m).map (·.item true)

/-- The first extension method of a name in the containers. -/
def findExtension? (containers : List TypeInfo) (name : String) : Option Found :=
  (containers.filter (·.isExtensionContainer)).findSome? fun container =>
    (container.members.find? fun m => m.isExtension && m.isStatic && m.name == name).map
      (⟨·, { info := container }⟩)

end Typeahead.Catalog
