namespace Typeahead.Source

/-- Offsets `start` to `stop`; a caret at either end counts as inside. -/
structure Span where
  start : Nat
  stop : Nat
  deriving DecidableEq, Repr

/-- The span between two offsets; empty when they are out of order. -/
def Span.of (start stop : Nat) : Span := ⟨start, max stop start⟩

def Span.contains (s : Span) (offset : Nat) : Bool := s.start ≤ offset && offset ≤ s.stop

def Span.length (s : Span) : Nat := s.stop - s.start

/-- How the code around the caret may use the members of its type. -/
inductive DeclContext where
  /-- A static member body or a static type. -/
  | staticBody
  | instanceBody
  /-- Outside every member body. -/
  | outside
  deriving DecidableEq, Repr

def DeclContext.allows (context : DeclContext) (isStatic : Bool) : Bool :=
  match context with
  | .staticBody => isStatic
  | .instanceBody | .outside => true

inductive VariableKind where
  | field
  | parameter
  | localVariable
  deriving DecidableEq, Repr

/-- Where the type of an implicitly typed variable comes from. -/
inductive Initializer where
  | expression (text : String)
  /-- The elements of the expression, as in a `foreach` header. -/
  | elementOf (text : String)
  deriving DecidableEq, Repr

/-- A field, parameter or local of the edited text. -/
structure Variable where
  name : String
  /-- The type as written; `var` when it has to be inferred. -/
  typeName : String
  span : Span
  isStatic : Bool
  kind : VariableKind
  initializer : Option Initializer
  deriving DecidableEq, Repr

structure Parameter where
  typeName : String
  name : String
  deriving DecidableEq, Repr

/-- A method of the edited text; its span goes on to the end of its body. -/
structure Method where
  name : String
  returnType : String
  isStatic : Bool
  span : Span
  parameters : List Parameter
  deriving DecidableEq, Repr

/-- `int Find(string key, int from)` -/
def Method.signature (m : Method) : String :=
  let parameters := m.parameters.map fun p => p.typeName ++ " " ++ p.name
  m.returnType ++ " " ++ m.name ++ "(" ++ ", ".intercalate parameters ++ ")"

/-- A property of the edited text; its span goes on to the end of its body. -/
structure Property where
  name : String
  returnType : String
  isStatic : Bool
  span : Span
  deriving DecidableEq, Repr

/-- A member body: where it stands and whether it is static. -/
structure MemberBody where
  span : Span
  isStatic : Bool
  deriving DecidableEq, Repr

/-- Everything declared in the body of a type, in source order. -/
structure Declarations where
  vars : List Variable := []
  methods : List Method := []
  properties : List Property := []
  bodies : List MemberBody := []
  /-- Names that some declaration without an access modifier other than `private` carries. -/
  privateNames : List String := []
  deriving DecidableEq, Repr

instance : Append Declarations where
  append a b := {
    vars := a.vars ++ b.vars
    methods := a.methods ++ b.methods
    properties := a.properties ++ b.properties
    bodies := a.bodies ++ b.bodies
    privateNames := a.privateNames ++ b.privateNames }

namespace Declarations

@[simp] theorem vars_append (a b : Declarations) : (a ++ b).vars = a.vars ++ b.vars := rfl
@[simp] theorem methods_append (a b : Declarations) : (a ++ b).methods = a.methods ++ b.methods := rfl
@[simp] theorem properties_append (a b : Declarations) :
    (a ++ b).properties = a.properties ++ b.properties := rfl
@[simp] theorem privateNames_append (a b : Declarations) :
    (a ++ b).privateNames = a.privateNames ++ b.privateNames := rfl

/-- The first of the shortest bodies. -/
def shortestBody : List MemberBody → Option MemberBody
  | [] => none
  | b :: bs =>
    match shortestBody bs with
    | some best => if best.span.length < b.span.length then some best else some b
    | none => some b

/-- The context at a caret: that of the shortest body around it. -/
def contextAt (ds : Declarations) (typeIsStatic : Bool) (caret : Nat) : DeclContext :=
  if typeIsStatic then .staticBody
  else
    match shortestBody (ds.bodies.filter (·.span.contains caret)) with
    | some body => if body.isStatic then .staticBody else .instanceBody
    | none => .outside

/-- Locals and parameters, then the fields the context allows. -/
def variablesIn (ds : Declarations) (context : DeclContext) : List Variable :=
  ds.vars.filter (·.kind != .field) ++
    ds.vars.filter fun v => v.kind == .field && context.allows v.isStatic

def visibleVariables (ds : Declarations) (context : DeclContext) (caret : Nat) : List Variable :=
  (ds.variablesIn context).filter (·.span.contains caret)

def methodsIn (ds : Declarations) (context : DeclContext) : List Method :=
  ds.methods.filter fun m => context.allows m.isStatic

def propertiesIn (ds : Declarations) (context : DeclContext) : List Property :=
  ds.properties.filter fun p => context.allows p.isStatic

def findVariable? (ds : Declarations) (name : String) (caret : Nat) (context : DeclContext) :
    Option Variable :=
  (ds.visibleVariables context caret).find? (·.name == name)

def findProperty? (ds : Declarations) (name : String) (context : DeclContext) : Option Property :=
  (ds.propertiesIn context).find? (·.name == name)

def findMethod? (ds : Declarations) (name : String) (context : DeclContext) : Option Method :=
  (ds.methodsIn context).find? (·.name == name)

/-- Fields, methods and properties whose name is not among the private names. -/
def inheritable (ds : Declarations) : Declarations :=
  let keeps (name : String) : Bool := !ds.privateNames.contains name
  { vars := ds.vars.filter fun v => v.kind == .field && keeps v.name
    methods := ds.methods.filter fun m => keeps m.name
    properties := ds.properties.filter fun p => keeps p.name }

/-- Every variable given the same span. -/
def withSpan (ds : Declarations) (span : Span) : Declarations :=
  { ds with vars := ds.vars.map fun v => { v with span } }

end Declarations

end Typeahead.Source
