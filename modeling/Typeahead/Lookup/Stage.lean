import Typeahead.Lookup.Head
import Typeahead.Catalog.Namespaces
import Typeahead.Source.Target

namespace Typeahead.Lookup

open Text Catalog Source

def variableItem (v : Variable) (origin : String) : Item :=
  let category := match v.kind with
    | .field => .field
    | .parameter | .localVariable => .localVariable
  (Item.named v.name category origin).withTooltip (v.typeName ++ " " ++ v.name)

def methodItem (m : Method) (origin : String) : Item :=
  (Item.named m.name .method origin).withSignature m.signature

def propertyItem (p : Property) (origin : String) : Item :=
  (Item.named p.name .property origin).withTooltip (p.returnType ++ " " ++ p.name ++ " \x7b get; \x7d")

def namespaceItem (name origin : String) : Item :=
  (Item.named name .namespaceName origin).withTooltip ("namespace " ++ name)

/-- The items without a second one of a name. -/
def merged (items : List Item) : List Item := (CandidateSet.ofList items).items

namespace Scope

/-- Namespaces for a directive that is being written. -/
def usingStage (s : Scope) (before : List Char) : Outcome :=
  match usingPartial? before with
  | none => .notApplicable
  | some typed =>
    let (namespaces, start) :=
      match breakLast (· == '.') typed.toList with
      | some (parent, _, start) => (s.catalog.childNamespaces (String.ofList parent), start)
      | none => (s.catalog.rootNamespaces, typed.toList)
    .ofItems <| (namespaces.filter fun name => startsWithIgnoringCase name.toList start).map fun name =>
      namespaceItem name "using_namespace"

/-- Letters and digits of the ASCII range, the underscore and the dot. -/
def isPlainDotted (name : String) : Bool :=
  name.toList.all fun c => c.isAlphanum || c == '_' || c == '.'

/-- What a namespace before a dot holds: the namespaces inside it and its types. -/
def namespaceStage (s : Scope) (target : Target) : Outcome :=
  if !target.hasDot then .notApplicable
  else
    let chain := s.context.expandAlias target.chain
    if !isPlainDotted chain then .notApplicable
    else
      match (s.context.qualifiers.map (qualify · chain)).find? s.catalog.isNamespace with
      | none => .notApplicable
      | some name =>
        .ofItems <| merged <|
          (s.catalog.childNamespaces name).map (namespaceItem · "namespace_partial") ++
            (s.catalog.typesIn [name]).map (·.item)

/-- The members of base types in the catalog, as the derived type sees them. -/
def inheritedItems (s : Scope) (mode : BindingMode) : List Item :=
  s.baseTypes.flatMap fun base => s.catalog.reachableItems base mode s.nonPublic true

/-- The declarations that a bare name may mean. -/
def declaredItems (s : Scope) : List Item :=
  let origin := "visible_scope"
  let context := s.context.declContext
  let sources := [s.context.declarations, s.context.inherited]
  (sources.flatMap fun d => (d.visibleVariables context s.context.caret).map (variableItem · origin)) ++
    sources.flatMap fun d =>
      (d.methodsIn context).map (methodItem · origin) ++ (d.propertiesIn context).map (propertyItem · origin)

/-- Everything a bare name may mean. Each group drops its own repetitions; one of another group stays. -/
def visibleStage (s : Scope) (target : Target) : Outcome :=
  if !target.isBlank then .notApplicable
  else
    .ofItems <|
      merged (s.inheritedItems s.inheritedMode) ++
      s.importedTypes.map (·.item) ++
      merged (s.staticImports.flatMap fun t => s.catalog.reachableItems t .typeStatics false false) ++
      merged s.declaredItems ++
      s.catalog.rootNamespaces.map (namespaceItem · "visible_scope")

/-- A chain whose head is a declared entity. -/
def localChain (s : Scope) : List Segment → Outcome
  | [] => .notApplicable
  | head :: rest =>
    match s.localHead? head with
    | some (.type t) => s.complete t rest .instanceMembers s.nonPublic
    | some .void => if rest.isEmpty then .empty else .notApplicable
    | some .failed | none => .notApplicable

/-- The statics of the type around the caret. -/
def ownStatics (s : Scope) : Outcome :=
  let origin := "static_member"
  let own := s.context.declarations
  .ofItems <| merged <|
    ((own.variablesIn .staticBody).filter (·.kind == .field)).map (variableItem · origin) ++
      (own.propertiesIn .staticBody).map (propertyItem · origin) ++
      (own.methodsIn .staticBody).map (methodItem · origin)

/-- A chain whose head is a type: one of the catalog, the type around the caret, or one whose statics are
imported. -/
def staticChain (s : Scope) (segments : List Segment) : Outcome :=
  match s.staticHead? segments with
  | some (t, used) => s.complete t (segments.drop used) .typeStatics s.nonPublic
  | none =>
    match segments with
    | [] => .notApplicable
    | head :: rest =>
      if rest.isEmpty && s.context.typeName? == some head.name then s.ownStatics
      else
        let declares (t : ResolvedType) : Bool :=
          (s.catalog.findMember? t head.name .typeStatics false).isSome
        match s.staticImports.find? declares with
        | some t => s.complete t segments .typeStatics false
        | none => .notApplicable

/-- The words that stand for the instance at hand. -/
inductive Receiver where
  | this
  | base
  deriving DecidableEq, Repr

def receiver? (head : Segment) : Option Receiver :=
  if !head.isPlain then none
  else if head.name = "this" then some .this
  else if head.name = "base" then some .base
  else none

/-- The instance members among declarations; locals and parameters as well where the caret can see
them. -/
def instanceItems (s : Scope) (d : Declarations) (withLocals : Bool) : List Item :=
  let origin := "this_base"
  let shown :=
    if withLocals then d.visibleVariables .instanceBody s.context.caret
    else (d.variablesIn .instanceBody).filter (·.kind == .field)
  (shown.filter (!·.isStatic)).map (variableItem · origin) ++
    ((d.propertiesIn .instanceBody).filter (!·.isStatic)).map (propertyItem · origin) ++
    ((d.methodsIn .instanceBody).filter (!·.isStatic)).map (methodItem · origin)

/-- What `this.` and `base.` list. There is no instance in a static context. -/
def receiverItems (s : Scope) (r : Receiver) : Outcome :=
  if s.context.declContext = .staticBody then .empty
  else
    let own := if r = .this then s.instanceItems s.context.declarations true else []
    .ofItems <| merged <|
      own ++ s.instanceItems s.context.inherited false ++ s.inheritedItems .instanceMembers

/-- The instance at hand, alone or as the start of a chain, where the word adds nothing. -/
def receiverStage (s : Scope) (target : Target) : Outcome :=
  if !target.hasDot then .notApplicable
  else
    match segmentsOf target.chain.toList with
    | [] => .notApplicable
    | head :: rest =>
      match receiver? head with
      | none => .notApplicable
      | some r =>
        if rest.isEmpty then s.receiverItems r
        else (s.localChain rest).orElse fun _ => s.staticChain rest

def localStage (s : Scope) (target : Target) : Outcome :=
  if target.hasDot then s.localChain (segmentsOf target.chain.toList) else .notApplicable

def staticStage (s : Scope) (target : Target) : Outcome :=
  if target.hasDot then s.staticChain (segmentsOf target.chain.toList) else .notApplicable

/-- The stages that need a type around the caret; the first that applies answers. -/
def codeStages (s : Scope) (target : Target) : Outcome :=
  (s.namespaceStage target).orElse fun _ =>
    (s.visibleStage target).orElse fun _ =>
      (s.receiverStage target).orElse fun _ =>
        (s.localStage target).orElse fun _ => s.staticStage target

end Scope

end Typeahead.Lookup
