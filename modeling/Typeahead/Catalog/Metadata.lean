import Typeahead.Lookup.Item
import Typeahead.TypeName

namespace Typeahead.Catalog

open Text Lookup

/-- The type that stands for the absence of a value. -/
def voidType : String := "System.Void"

def objectType : String := "System.Object"

def arrayType : String := "System.Array"

inductive TypeKind where
  | classType
  | interfaceType
  | enumType
  | delegateType
  | structType
  deriving DecidableEq, Repr

/-- The language's word for a kind of type. -/
def TypeKind.word : TypeKind → String
  | .classType => "class"
  | .interfaceType => "interface"
  | .enumType => "enum"
  | .delegateType => "delegate"
  | .structType => "struct"

def TypeKind.category : TypeKind → Category
  | .classType => .classType
  | .interfaceType => .interfaceType
  | .enumType => .enumType
  | .delegateType => .delegateType
  | .structType => .valueType

inductive Access where
  | publicAccess
  | protectedAccess
  | internalAccess
  | privateAccess
  deriving DecidableEq, Repr

inductive MemberKind where
  | field
  | property
  | method
  | event
  | constructor
  deriving DecidableEq, Repr

structure ParameterInfo where
  name : String
  typeName : String
  deriving DecidableEq, Repr

/-- A member as the metadata of its assembly describes it. -/
structure MemberInfo where
  name : String
  kind : MemberKind
  /-- The type of a field, property or event, or what a method returns. -/
  typeName : String := voidType
  parameters : List ParameterInfo := []
  genericParameters : List String := []
  isStatic : Bool := false
  access : Access := .publicAccess
  isSpecial : Bool := false
  isGenerated : Bool := false
  /-- A field whose value is a constant. -/
  isLiteral : Bool := false
  isExtension : Bool := false
  deriving DecidableEq, Repr

/-- A type as the metadata of its assembly describes it. -/
structure TypeInfo where
  namespaceName : Option String := none
  /-- The name inside the namespace; a nested type is written `Outer+Inner`. -/
  name : String
  kind : TypeKind
  access : Access := .publicAccess
  baseType : Option String := none
  interfaces : List String := []
  genericParameters : List String := []
  /-- A static class that declares extension methods. -/
  isExtensionContainer : Bool := false
  members : List MemberInfo := []
  deriving DecidableEq, Repr

structure Assembly where
  name : String
  types : List TypeInfo := []
  deriving DecidableEq, Repr

namespace TypeInfo

/-- The namespace; empty for a type in none. -/
def namespaceText (t : TypeInfo) : String := t.namespaceName.getD ""

def fullName (t : TypeInfo) : String :=
  if t.namespaceText = "" then t.name else t.namespaceText ++ "." ++ t.name

/-- The last part of a nested name. -/
def simpleName (t : TypeInfo) : String := String.ofList (lastField (· == '+') t.name.toList)

def isNested (t : TypeInfo) : Bool := t.name.toList.contains '+'

def isPublic (t : TypeInfo) : Bool := t.access == .publicAccess

/-- The name with the generic parameters after it. -/
def displayName (t : TypeInfo) : String :=
  if t.genericParameters.isEmpty then t.simpleName
  else t.simpleName ++ "<" ++ ", ".intercalate t.genericParameters ++ ">"

def item (t : TypeInfo) : Item :=
  let inNamespace := if t.namespaceText = "" then t.displayName else t.namespaceText ++ "." ++ t.displayName
  (Item.named t.simpleName t.kind.category "catalog").withTooltip (t.kind.word ++ " " ++ inNamespace)

end TypeInfo

/-- How the code that asks for a member reaches it. -/
inductive Reach where
  /-- Declared on the receiver's own type. -/
  | declared
  /-- Declared on a base of the receiver's type. -/
  | base
  /-- Inherited by the type being edited. -/
  | subclass
  deriving DecidableEq, Repr

namespace MemberInfo

def isVoid (m : MemberInfo) : Bool := TypeName.canonicalBase ⟨m.typeName⟩ == voidType

/-- Members that no list shows: special and generated ones, constructors and finalizers. -/
def isHidden (m : MemberInfo) : Bool :=
  m.isSpecial || m.isGenerated || m.kind == .constructor ||
    m.name.toList.head?.any (fun c => c == '<' || c == '.') ||
    (m.kind == .method && m.name == "Finalize" && m.parameters.isEmpty)

def displayType (m : MemberInfo) : String := TypeName.display ⟨m.typeName⟩

/-- The parameters of a signature; `this` stands in front of the first one of an extension method. -/
def parameterTexts (m : MemberInfo) : List String :=
  let texts := m.parameters.map fun p => TypeName.display ⟨p.typeName⟩ ++ " " ++ p.name
  match texts with
  | [] => []
  | first :: more => if m.isExtension then ("this " ++ first) :: more else first :: more

def signature (m : MemberInfo) : String :=
  match m.kind with
  | .method | .constructor =>
    let generics :=
      if m.genericParameters.isEmpty then "" else "<" ++ ", ".intercalate m.genericParameters ++ ">"
    m.displayType ++ " " ++ m.name ++ generics ++ "(" ++ ", ".intercalate m.parameterTexts ++ ")"
  | .property => m.displayType ++ " " ++ m.name ++ " \x7b get; \x7d"
  | .event => "event " ++ m.displayType ++ " " ++ m.name
  | .field => (if m.isLiteral then "const " else "") ++ m.displayType ++ " " ++ m.name

/-- Whether code may see the member. Private members show only on the type that declares them, and
protected ones always in a derived type. -/
def isVisible (m : MemberInfo) (nonPublic : Bool) (reach : Reach) : Bool :=
  match m.access, reach with
  | .publicAccess, _ => true
  | .protectedAccess, .subclass => true
  | .protectedAccess, _ | .internalAccess, _ => nonPublic
  | .privateAccess, .declared => nonPublic
  | .privateAccess, _ => false

/-- The category in a list; `asExtension` when the member is called as an extension method. -/
def category (m : MemberInfo) (asExtension : Bool) : Category :=
  match m.kind with
  | .field => if m.isLiteral then .constant else .field
  | .property => .property
  | .event => .event
  | .method => if asExtension then .extensionMethod else .method
  | .constructor => .method

def item (m : MemberInfo) (asExtension : Bool) : Item :=
  (Item.named m.name (m.category asExtension) "catalog").withSignature m.signature

end MemberInfo

end Typeahead.Catalog
