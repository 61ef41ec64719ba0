import Typeahead.Lookup.Response
import Typeahead.Lookup.Scope
import Typeahead.Source.Chain

namespace Typeahead.Lookup

open Catalog Source

/-- Where a walk ends. -/
inductive Walk where
  | type (t : ResolvedType)
  /-- The chain ends in something without a value. -/
  | void
  | failed
  deriving DecidableEq, Repr

def Walk.ofType (t : ResolvedType) : Walk := if t.isVoid then .void else .type t

def Walk.ofType? : Option ResolvedType → Walk
  | some t => .ofType t
  | none => .failed

/-- What a segment means on a type. -/
inductive Hop where
  | member (found : Found)
  | nested (info : TypeInfo)
  | extensionMethod (found : Found)
  /-- Nothing of that name is found. -/
  | missing
  deriving DecidableEq, Repr

/-- Whether the hop reaches something without a value. -/
def Hop.isVoid : Hop → Bool
  | .member found | .extensionMethod found => found.member.isVoid
  | .nested _ | .missing => false

/-- Whether a chain may end in the hop when it has no value: an indexed member may not stand there. -/
def Hop.mayEnd (seg : Segment) : Hop → Bool
  | .member _ => seg.indexDepth == 0
  | _ => true

/-- How a type is written in code. -/
def writtenName (t : ResolvedType) : TypeName :=
  match t.element with
  | some element => ⟨element.text ++ "[]"⟩
  | none =>
    if t.arguments.isEmpty then ⟨t.fullName⟩
    else ⟨t.fullName ++ "<" ++ ", ".intercalate (t.arguments.map (·.text)) ++ ">"⟩

/-- The overload that takes as many parameters as the call has arguments, if there is one beside the
member. -/
def selectOverload (f : Found) (seg : Segment) : Found :=
  match seg.argumentCount with
  | none => f
  | some count =>
    if f.member.kind = .method then
      let fits (m : MemberInfo) : Bool :=
        m.kind == .method && m.name == f.member.name && m.isStatic == f.member.isStatic &&
          m.parameters.length == count
      { f with member := (f.declaring.info.members.find? fits).getD f.member }
    else f

namespace Scope

/-- What a segment means: a member, else a nested type when the access is to a type, else an extension
method in scope. -/
def hop (s : Scope) (t : ResolvedType) (seg : Segment) (mode : BindingMode) (nonPublic : Bool) : Hop :=
  match s.catalog.findMember? t seg.name mode nonPublic with
  | some found => .member (selectOverload found seg)
  | none =>
    if mode = .typeStatics then
      match if seg.isPlain then s.catalog.findType? (t.fullName ++ "+" ++ seg.name) else none with
      | some info => .nested info
      | none => .missing
    else
      match findExtension? s.importedTypes seg.name with
      | some found => .extensionMethod found
      | none => .missing

/-- The result of an extension method called on a receiver. A generic `this` parameter stands for the
receiver, and a generic argument of the `this` parameter for the receiver's elements. -/
def extensionResult (s : Scope) (receiver : ResolvedType) (m : MemberInfo) : TypeName :=
  let result : TypeName := ⟨m.typeName⟩
  match m.parameters with
  | [] => result
  | first :: _ =>
    let this : TypeName := ⟨first.typeName⟩
    if m.genericParameters.contains this.text then
      result.substitute [this.text] [writtenName receiver]
    else
      match s.elementOf? receiver with
      | none => result
      | some element =>
        let bound := (this.arguments.map (·.text)).filter m.genericParameters.contains
        result.substitute bound (bound.map fun _ => writtenName element)

/-- The type after a hop and the mode of the next one. -/
def land (s : Scope) (t : ResolvedType) : Hop → Option (ResolvedType × BindingMode)
  | .member found => (s.typeOf? found).map (·, .instanceMembers)
  | .nested info => some ({ info }, .typeStatics)
  | .extensionMethod found => (s.resolve? (s.extensionResult t found.member).text).map (·, .instanceMembers)
  | .missing => none

/-- The type after a segment with its indexers. -/
def step (s : Scope) (t : ResolvedType) (seg : Segment) (hop : Hop) : Option (ResolvedType × BindingMode) :=
  (s.land t hop).bind fun (next, mode) => (s.applyIndex? seg.indexDepth next).map (·, mode)

/-- Follows segments from a type. The mode and the choice of members hold for the first hop alone. -/
def follow (s : Scope) (t : ResolvedType) (mode : BindingMode) (nonPublic : Bool) : List Segment → Walk
  | [] => .ofType t
  | seg :: rest =>
    let hop := s.hop t seg mode nonPublic
    if hop.isVoid then
      if rest.isEmpty && hop.mayEnd seg then .void else .failed
    else
      match s.step t seg hop with
      | none => .failed
      | some (next, mode) => s.follow next mode s.nonPublic rest

/-- Follows segments from the type of a chain's head, which may be without a value. -/
def walk (s : Scope) (head : ResolvedType) (segments : List Segment) (mode : BindingMode)
    (nonPublic : Bool) : Walk :=
  if head.isVoid then .void else s.follow head mode nonPublic segments

/-- Whether the last segment names the nested type in which the chain ends. -/
def endsInNestedType (segments : List Segment) (last : ResolvedType) : Bool :=
  segments.getLast?.any fun seg => seg.isPlain && last.info.isNested && last.info.simpleName == seg.name

/-- Walks a chain and lists what stands at its end. -/
def complete (s : Scope) (head : ResolvedType) (segments : List Segment) (mode : BindingMode)
    (nonPublic : Bool) : Outcome :=
  match s.walk head segments mode nonPublic with
  | .failed => .notApplicable
  | .void => .empty
  | .type last =>
    .ofItems <|
      if segments.isEmpty then s.enumerate last mode nonPublic
      else if endsInNestedType segments last then s.enumerate last .typeStatics s.nonPublic
      else s.enumerate last .instanceMembers s.nonPublic

end Scope

end Typeahead.Lookup
