import Typeahead.Catalog.Metadata
import Typeahead.Json.Basic

namespace Typeahead.Catalog

/-- Whether a record may repeat a field; the last value counts then. -/
inductive Repetition where
  | allowed
  | refused
  deriving DecidableEq, Repr

/-- A value of a field, or nothing when the record has none. -/
abbrev Slot := Option Json

/-- The values of the named fields of a record, in the order of the names. -/
def slots? (repetition : Repetition) (names : List String) : Json → Option (List Slot)
  | .object fields =>
    let repeats (name : String) : Bool := decide (1 < (fields.filter (·.1 == name)).length)
    if repetition = .refused && names.any repeats then none
    else some (names.map fun name => (fields.reverse.find? (·.1 == name)).map (·.2))
  | .array items =>
    if names.length < items.length then none
    else some (items.map some ++ List.replicate (names.length - items.length) none)
  | _ => none

def required? {α : Type} (read : Json → Option α) (slot : Slot) : Option α := slot.bind read

def optional? {α : Type} (fallback : α) (read : Json → Option α) : Slot → Option α
  | none => some fallback
  | some value => read value

def readString? : Json → Option String
  | .string text => some text
  | _ => none

def readBool? : Json → Option Bool
  | .bool value => some value
  | _ => none

def readList? {α : Type} (read : Json → Option α) : Json → Option (List α)
  | .array items => items.mapM read
  | _ => none

/-- A string, or `null` for none. -/
def readNullable? : Json → Option (Option String)
  | .null => some none
  | .string text => some (some text)
  | _ => none

/-- One of some words: the string itself, or an object whose only field it is, with the value `null`. -/
def readWord? {α : Type} (words : List (String × α)) : Json → Option α
  | .string word => words.lookup word
  | .object [(word, .null)] => words.lookup word
  | _ => none

def typeKindWords : List (String × TypeKind) := [
  ("class", .classType), ("interface", .interfaceType), ("enum", .enumType),
  ("delegate", .delegateType), ("struct", .structType)]

def accessWords : List (String × Access) := [
  ("public", .publicAccess), ("protected", .protectedAccess), ("internal", .internalAccess),
  ("private", .privateAccess)]

def memberKindWords : List (String × MemberKind) := [
  ("field", .field), ("property", .property), ("method", .method), ("event", .event),
  ("constructor", .constructor)]

def ParameterInfo.ofJson? (repetition : Repetition) (json : Json) : Option ParameterInfo := do
  match ← slots? repetition ["name", "type"] json with
  | [name, typeName] =>
    return { name := ← required? readString? name, typeName := ← required? readString? typeName }
  | _ => none

def memberFields : List String := [
  "name", "kind", "type", "parameters", "genericParameters", "static", "access", "specialName",
  "compilerGenerated", "literal", "extension"]

def MemberInfo.ofJson? (repetition : Repetition) (json : Json) : Option MemberInfo := do
  match ← slots? repetition memberFields json with
  | [name, kind, typeName, parameters, generics, isStatic, access, special, generated, literal, extension] =>
    return {
      name := ← required? readString? name
      kind := ← required? (readWord? memberKindWords) kind
      typeName := ← optional? voidType readString? typeName
      parameters := ← optional? [] (readList? (ParameterInfo.ofJson? repetition)) parameters
      genericParameters := ← optional? [] (readList? readString?) generics
      isStatic := ← optional? false readBool? isStatic
      access := ← optional? .publicAccess (readWord? accessWords) access
      isSpecial := ← optional? false readBool? special
      isGenerated := ← optional? false readBool? generated
      isLiteral := ← optional? false readBool? literal
      isExtension := ← optional? false readBool? extension }
  | _ => none

def typeFields : List String := [
  "namespace", "name", "kind", "access", "baseType", "interfaces", "genericParameters",
  "extensionContainer", "members"]

def TypeInfo.ofJson? (repetition : Repetition) (json : Json) : Option TypeInfo := do
  match ← slots? repetition typeFields json with
  | [namespaceName, name, kind, access, baseType, interfaces, generics, container, members] =>
    return {
      namespaceName := ← optional? none readNullable? namespaceName
      name := ← required? readString? name
      kind := ← required? (readWord? typeKindWords) kind
      access := ← optional? .publicAccess (readWord? accessWords) access
      baseType := ← optional? none readNullable? baseType
      interfaces := ← optional? [] (readList? readString?) interfaces
      genericParameters := ← optional? [] (readList? readString?) generics
      isExtensionContainer := ← optional? false readBool? container
      members := ← optional? [] (readList? (MemberInfo.ofJson? repetition)) members }
  | _ => none

def Assembly.ofJson? (repetition : Repetition) (json : Json) : Option Assembly := do
  match ← slots? repetition ["name", "types"] json with
  | [name, types] =>
    return {
      name := ← required? readString? name
      types := ← optional? [] (readList? (TypeInfo.ofJson? repetition)) types }
  | _ => none

end Typeahead.Catalog
