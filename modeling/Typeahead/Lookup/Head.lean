import Typeahead.Lookup.Walk

namespace Typeahead.Lookup

open Catalog Source

/-- How many implicitly typed variables may stand in a row of initializers. -/
def inferenceDepth : Nat := 4

/-- What a name means as a declared entity. -/
inductive Entity where
  | method (m : Method)
  | variable (v : Variable)
  | property (p : Property)
  | inherited (w : Walk)
  deriving DecidableEq, Repr

namespace Scope

/-- The shortest run of leading segments that names a type, and its length. A call ends the search, and
so does an indexer behind a name that is no type. -/
def staticHeadFrom (s : Scope) (name : String) (used : Nat) : List Segment → Option (ResolvedType × Nat)
  | [] => none
  | seg :: rest =>
    if seg.argumentCount.isSome then none
    else
      let name := if used = 0 then seg.name else name ++ "." ++ seg.name
      match s.resolve? name with
      | some t => some (t, used + 1)
      | none => if seg.indexDepth > 0 then none else s.staticHeadFrom name (used + 1) rest

def staticHead? (s : Scope) (segments : List Segment) : Option (ResolvedType × Nat) :=
  s.staticHeadFrom "" 0 segments

/-- Which members of a base type are used without a receiver. -/
def inheritedMode (s : Scope) : BindingMode :=
  if s.context.declContext = .staticBody then .typeStatics else .allMembers

/-- A member of a base type in the catalog, used without a receiver. -/
def inheritedMember? (s : Scope) (name : String) : Option Walk :=
  (s.baseTypes.findSome? fun base => s.catalog.findMember? base name s.inheritedMode true).map fun found =>
    if found.member.isVoid then .void else .ofType? (s.typeOf? found)

/-- A call means a declared method. Any other head means the first of a variable, a property, an
inherited variable, an inherited property and an inherited member of the catalog. -/
def entity? (s : Scope) (head : Segment) : Option Entity :=
  let context := s.context.declContext
  let own := s.context.declarations
  let inherited := s.context.inherited
  if head.argumentCount.isSome then
    ((own.findMethod? head.name context).or (inherited.findMethod? head.name context)).map .method
  else
    ((own.findVariable? head.name s.context.caret context).map Entity.variable)
      |>.or ((own.findProperty? head.name context).map .property)
      |>.or ((inherited.findVariable? head.name s.context.caret context).map .variable)
      |>.or ((inherited.findProperty? head.name context).map .property)
      |>.or ((s.inheritedMember? head.name).map .inherited)

def entityType (s : Scope) (variableType : Variable → Walk) : Entity → Walk
  | .method m => .ofType? (s.resolve? m.returnType)
  | .variable v => variableType v
  | .property p => .ofType? (s.resolve? p.returnType)
  | .inherited w => w

/-- The element type where a walk ends in a type. -/
def elementWalk (s : Scope) : Walk → Walk
  | .type t => .ofType? (s.elementOf? t)
  | other => other

/-- The head of a chain as a declared entity, with its indexers applied. -/
def localHeadWith (s : Scope) (variableType : Variable → Walk) (head : Segment) : Option Walk :=
  (s.entity? head).map fun entity =>
    match s.entityType variableType entity with
    | .type t =>
      match s.applyIndex? head.indexDepth t with
      | some t => .type t
      | none => .failed
    | other => other

/-- The type of an expression. -/
def expressionTypeWith (s : Scope) (variableType : Variable → Walk) (expression : String) : Walk :=
  match segmentsOf expression.toList with
  | [] => .failed
  | head :: rest =>
    match s.localHeadWith variableType head with
    | some (.type t) => s.walk t rest .instanceMembers true
    | some other => if rest.isEmpty then other else .failed
    | none =>
      match s.staticHead? (head :: rest) with
      | some (t, used) => s.walk t ((head :: rest).drop used) .typeStatics s.nonPublic
      | none => .failed

/-- The type of a variable; `depth` implicitly typed ones may still follow each other. -/
def variableTypeWithin (s : Scope) : (depth : Nat) → Variable → Walk
  | depth, v =>
    if v.typeName ≠ "var" then .ofType? (s.resolve? v.typeName)
    else
      match depth with
      | 0 => .failed
      | depth + 1 =>
        match v.initializer with
        | some (.expression e) => s.expressionTypeWith (fun v => s.variableTypeWithin depth v) e
        | some (.elementOf e) =>
          s.elementWalk (s.expressionTypeWith (fun v => s.variableTypeWithin depth v) e)
        | none => .failed

def variableType (s : Scope) (v : Variable) : Walk := s.variableTypeWithin inferenceDepth v

def localHead? (s : Scope) (head : Segment) : Option Walk := s.localHeadWith s.variableType head

def expressionType (s : Scope) (expression : String) : Walk := s.expressionTypeWith s.variableType expression

end Scope

end Typeahead.Lookup
