import Typeahead.Lookup.Code
import Typeahead.Proofs.Text.Boundary

namespace Typeahead.Lookup

open Text Catalog Source

namespace Scope

/-- The scope over another source beside the same blanked text. -/
def withSource (s : Scope) (source : List Char) : Scope := { s with context := { s.context with source } }

variable (s : Scope) (source : List Char)

@[simp] theorem catalog_withSource : (s.withSource source).catalog = s.catalog := rfl

@[simp] theorem nonPublic_withSource : (s.withSource source).nonPublic = s.nonPublic := rfl

@[simp] theorem resolve?_withSource : (s.withSource source).resolve? = s.resolve? := rfl

@[simp] theorem elementOf?_withSource : (s.withSource source).elementOf? = s.elementOf? := rfl

@[simp] theorem applyIndex?_withSource (depth : Nat) (t : ResolvedType) :
    (s.withSource source).applyIndex? depth t = s.applyIndex? depth t := by
  induction depth generalizing t with
  | zero => rfl
  | succ depth ih =>
    have same : (s.withSource source).applyIndex? depth = s.applyIndex? depth := funext ih
    rw [applyIndex?, applyIndex?, elementOf?_withSource, same]

@[simp] theorem enumerate_withSource : (s.withSource source).enumerate = s.enumerate := rfl

@[simp] theorem hop_withSource : (s.withSource source).hop = s.hop := rfl

@[simp] theorem step_withSource (t : ResolvedType) (seg : Segment) (hop : Hop) :
    (s.withSource source).step t seg hop = s.step t seg hop := by
  have land : (s.withSource source).land t hop = s.land t hop := by cases hop <;> rfl
  simp only [step, land, applyIndex?_withSource]

@[simp] theorem follow_withSource (t : ResolvedType) (mode : BindingMode) (nonPublic : Bool)
    (segments : List Segment) :
    (s.withSource source).follow t mode nonPublic segments = s.follow t mode nonPublic segments := by
  induction segments generalizing t mode nonPublic with
  | nil => rfl
  | cons seg rest ih =>
    simp only [follow, hop_withSource, step_withSource, nonPublic_withSource, ih]
    rfl

@[simp] theorem walk_withSource (head : ResolvedType) (segments : List Segment) (mode : BindingMode)
    (nonPublic : Bool) :
    (s.withSource source).walk head segments mode nonPublic = s.walk head segments mode nonPublic := by
  simp only [walk, follow_withSource]

@[simp] theorem complete_withSource (head : ResolvedType) (segments : List Segment) (mode : BindingMode)
    (nonPublic : Bool) :
    (s.withSource source).complete head segments mode nonPublic = s.complete head segments mode nonPublic := by
  simp only [complete, walk_withSource, enumerate_withSource, nonPublic_withSource]

@[simp] theorem staticHeadFrom_withSource (name : String) (used : Nat) (segments : List Segment) :
    (s.withSource source).staticHeadFrom name used segments = s.staticHeadFrom name used segments := by
  induction segments generalizing name used with
  | nil => rfl
  | cons seg rest ih => simp only [staticHeadFrom, resolve?_withSource, ih]

@[simp] theorem staticHead?_withSource (segments : List Segment) :
    (s.withSource source).staticHead? segments = s.staticHead? segments :=
  s.staticHeadFrom_withSource source "" 0 segments

@[simp] theorem entity?_withSource : (s.withSource source).entity? = s.entity? := rfl

@[simp] theorem entityType_withSource (variableType : Variable → Walk) (entity : Entity) :
    (s.withSource source).entityType variableType entity = s.entityType variableType entity := by
  cases entity <;> rfl

@[simp] theorem elementWalk_withSource (w : Walk) :
    (s.withSource source).elementWalk w = s.elementWalk w := by
  cases w <;> rfl

@[simp] theorem localHeadWith_withSource (variableType : Variable → Walk) (head : Segment) :
    (s.withSource source).localHeadWith variableType head = s.localHeadWith variableType head := by
  simp only [localHeadWith, entity?_withSource, entityType_withSource, applyIndex?_withSource]

@[simp] theorem expressionTypeWith_withSource (variableType : Variable → Walk) (expression : String) :
    (s.withSource source).expressionTypeWith variableType expression =
      s.expressionTypeWith variableType expression := by
  simp only [expressionTypeWith, localHeadWith_withSource, walk_withSource, staticHead?_withSource,
    nonPublic_withSource]

/-- The types of variables, by the number of implicitly typed ones that may follow each other. -/
@[simp] theorem variableTypeWithin_withSource (depth : Nat) :
    (s.withSource source).variableTypeWithin depth = s.variableTypeWithin depth := by
  induction depth with
  | zero => funext v; simp only [variableTypeWithin, resolve?_withSource]
  | succ depth ih =>
    funext v
    simp only [variableTypeWithin, resolve?_withSource, ih, expressionTypeWith_withSource, elementWalk_withSource]

@[simp] theorem localHead?_withSource (head : Segment) :
    (s.withSource source).localHead? head = s.localHead? head := by
  have same : (s.withSource source).variableType = s.variableType :=
    s.variableTypeWithin_withSource source inferenceDepth
  rw [localHead?, localHead?, same, localHeadWith_withSource]

@[simp] theorem localChain_withSource (segments : List Segment) :
    (s.withSource source).localChain segments = s.localChain segments := by
  cases segments with
  | nil => rfl
  | cons head rest =>
    simp only [localChain, localHead?_withSource, complete_withSource, nonPublic_withSource]

@[simp] theorem staticChain_withSource (segments : List Segment) :
    (s.withSource source).staticChain segments = s.staticChain segments := by
  have typeName : (s.withSource source).context.typeName? = s.context.typeName? := rfl
  have ownStatics : (s.withSource source).ownStatics = s.ownStatics := rfl
  have staticImports : (s.withSource source).staticImports = s.staticImports := rfl
  simp only [staticChain, staticHead?_withSource, complete_withSource, typeName, ownStatics, staticImports,
    catalog_withSource, nonPublic_withSource]

@[simp] theorem receiverStage_withSource (target : Target) :
    (s.withSource source).receiverStage target = s.receiverStage target := by
  have items : (s.withSource source).receiverItems = s.receiverItems := rfl
  simp only [receiverStage, items, localChain_withSource, staticChain_withSource]

@[simp] theorem codeStages_withSource (target : Target) :
    (s.withSource source).codeStages target = s.codeStages target := by
  have namespaces : (s.withSource source).namespaceStage target = s.namespaceStage target := rfl
  have visible : (s.withSource source).visibleStage target = s.visibleStage target := rfl
  simp only [codeStages, namespaces, visible, receiverStage_withSource, localStage, localChain_withSource,
    staticStage, staticChain_withSource]

/-- The answer hangs on the source by the blanked text alone. -/
theorem respond_withSource (before : List Char) :
    (s.withSource source).respond before = s.respond before := by
  have directives : (s.withSource source).usingStage before = s.usingStage before := rfl
  have place : ((s.withSource source).context.beforeFirstType || (s.withSource source).context.region.isNone) =
      (s.context.beforeFirstType || s.context.region.isNone) := rfl
  simp only [respond, directives, place, codeStages_withSource]

end Scope

/-- The line of the caret begins with an option marker. -/
def hasOptionMarker (source : List Char) (caret : Nat) : Bool := (embeddedOption? (upTo caret source)).isSome

variable (catalog : Catalog) (nonPublic : Bool) {source : List Char} {caret : Nat}

theorem lookupCode_of_optionMarker (marked : hasOptionMarker source caret = true) :
    lookupCode none catalog nonPublic source caret = .ok .notApplicable := by
  obtain ⟨⟨marker, typed⟩, found⟩ := Option.isSome_iff_exists.mp marked
  have parts : cut (Context.of source caret).caret (Context.of source caret).source =
      .ok (upTo caret source, after caret source) := cut_floorBoundary caret source
  unfold lookupCode
  simp only [parts, found, bind, Except.bind, pure, Except.pure]

/-- Without a marker the answer is put together from the blanked text. -/
theorem lookupCode_of_unmarked (unmarked : hasOptionMarker source caret = false) :
    lookupCode none catalog nonPublic source caret =
      if inCommentOrLiteral source (floorBoundary caret source) then .ok .notApplicable
      else (cut (floorBoundary caret source) (blank source)).map fun (before, _) =>
        Scope.respond { catalog, context := Context.of source caret, nonPublic } before := by
  have parts : cut (Context.of source caret).caret (Context.of source caret).source =
      .ok (upTo caret source, after caret source) := cut_floorBoundary caret source
  have none : embeddedOption? (upTo caret source) = none := by
    simpa [hasOptionMarker] using unmarked
  unfold lookupCode
  simp only [parts, none, bind, Except.bind, pure, Except.pure]
  rfl

/-- A directive at the end of a text has an answer, unless the end is taken to be in a comment or a literal. -/
theorem lookupCode_of_directive {typed : String} (unmarked : hasOptionMarker source (utf8Length source) = false)
    (outside : inCommentOrLiteral source (utf8Length source) = false)
    (directive : usingPartial? (blank source) = some typed) :
    lookupCode none catalog nonPublic source (utf8Length source) ≠ .ok .notApplicable := by
  intro silent
  have parts : cut (utf8Length source) (blank source) = .ok (blank source, []) := by
    have whole := cut_append (blank source) []
    rwa [List.append_nil, utf8Length_blank] at whole
  have applies : (Scope.usingStage { catalog, context := Context.of source (utf8Length source), nonPublic }
      (blank source)).isApplicable = true := by
    unfold Scope.usingStage
    rw [directive]
    exact Outcome.isApplicable_ofItems _
  rw [lookupCode_of_unmarked catalog nonPublic unmarked, (isBoundary_utf8Length source).floorBoundary, outside,
    parts] at silent
  have outcome := congrArg Response.outcome (Except.ok.inj silent)
  simp only [Scope.respond, Outcome.orElse, applies, Response.ofOutcome, if_true] at outcome
  rw [outcome] at applies
  exact Bool.noConfusion applies

end Typeahead.Lookup
