import Typeahead.Lookup.Head
import Typeahead.Proofs.Restriction.Walk

namespace Typeahead.Lookup

open Catalog Source

variable {keep : Selection}

def Entity.restrict (keep : Selection) : Entity → Entity
  | .inherited w => .inherited (w.restrict keep)
  | other => other

namespace Scope

/-- The members that the type of a name rests on, where it is a variable. -/
def headUses (s : Scope) (variableUses : Variable → List Found) (head : Segment) : List Found :=
  match s.entity? head with
  | some (.variable v) => variableUses v
  | _ => []

/-- The members that the type of an expression rests on. -/
def expressionUses (s : Scope) (variableType : Variable → Walk) (variableUses : Variable → List Found)
    (expression : String) : List Found :=
  match segmentsOf expression.toList with
  | [] => []
  | head :: rest =>
    s.headUses variableUses head ++
      match s.localHeadWith variableType head with
      | some (.type t) => s.walkUses t rest .instanceMembers true
      | some _ => []
      | none =>
        match s.staticHead? (head :: rest) with
        | some (t, used) => s.walkUses t ((head :: rest).drop used) .typeStatics s.nonPublic
        | none => []

def variableUsesWithin (s : Scope) : (depth : Nat) → Variable → List Found
  | depth, v =>
    if v.typeName ≠ "var" then []
    else
      match depth with
      | 0 => []
      | depth + 1 =>
        match v.initializer with
        | some (.expression e) | some (.elementOf e) =>
          s.expressionUses (s.variableTypeWithin depth) (fun v => s.variableUsesWithin depth v) e
        | none => []

def variableUses (s : Scope) (v : Variable) : List Found := s.variableUsesWithin inferenceDepth v

/-- The selection holds what the scope may show: everything public, and all members of base types. -/
structure Covers (s : Scope) (keep : Selection) : Prop extends s.Trusts keep where
  inherited : ∀ base ∈ s.baseTypes, ∀ ancestor ∈ s.catalog.ancestry base, ∀ m, keep ancestor.fullName m = true

theorem baseTypes_restrict (s : Scope) : (s.restrict keep).baseTypes = s.baseTypes.map (·.restrict keep) :=
  s.filterMap_resolve?_restrict _

theorem staticHeadFrom_restrict (s : Scope) (name : String) (used : Nat) (segments : List Segment) :
    (s.restrict keep).staticHeadFrom name used segments =
      (s.staticHeadFrom name used segments).map fun (t, used) => (t.restrict keep, used) := by
  induction segments generalizing name used with
  | nil => rfl
  | cons seg rest ih =>
    simp only [staticHeadFrom, resolve?_restrict, ih]
    generalize (if used = 0 then seg.name else name ++ "." ++ seg.name) = longer
    split
    · rfl
    · cases s.resolve? longer with
      | some t => rfl
      | none =>
        show (if seg.indexDepth > 0 then none else _) = Option.map _ (if seg.indexDepth > 0 then none else _)
        split <;> rfl

theorem staticHead?_restrict (s : Scope) (segments : List Segment) :
    (s.restrict keep).staticHead? segments =
      (s.staticHead? segments).map fun (t, used) => (t.restrict keep, used) :=
  s.staticHeadFrom_restrict "" 0 segments

variable {s : Scope} (covers : s.Covers keep)
include covers

theorem findMember?_base_restrict {base : ResolvedType} (isBase : base ∈ s.baseTypes) (name : String)
    (mode : BindingMode) (nonPublic : Bool) :
    (s.restrict keep).catalog.findMember? (base.restrict keep) name mode nonPublic =
      (s.catalog.findMember? base name mode nonPublic).map (·.restrict keep) := by
  refine s.catalog.findMember?_restrict fun f found => ?_
  obtain ⟨depth, above, -, -⟩ := mem_of_findMember? found
  exact covers.inherited base isBase _ (mem_ancestry_of_mem_numbered above) _

theorem inheritedMember?_restrict (name : String) :
    (s.restrict keep).inheritedMember? name = (s.inheritedMember? name).map (·.restrict keep) := by
  have found : ((s.restrict keep).baseTypes.findSome? fun base =>
        (s.restrict keep).catalog.findMember? base name s.inheritedMode true) =
      (s.baseTypes.findSome? fun base => s.catalog.findMember? base name s.inheritedMode true).map
        (·.restrict keep) := by
    have alike := fun base (isBase : base ∈ s.baseTypes) =>
      findMember?_base_restrict covers isBase name s.inheritedMode true
    rw [baseTypes_restrict]
    generalize s.baseTypes = bases at alike
    induction bases with
    | nil => rfl
    | cons base bases ih =>
      rw [List.map_cons, List.findSome?_cons, List.findSome?_cons, alike base List.mem_cons_self]
      cases s.catalog.findMember? base name s.inheritedMode true with
      | some f => rfl
      | none => exact ih fun base isBase => alike base (List.mem_cons_of_mem _ isBase)
  unfold inheritedMember?
  show Option.map _ ((s.restrict keep).baseTypes.findSome? fun base =>
    (s.restrict keep).catalog.findMember? base name s.inheritedMode true) = _
  rw [found]
  cases s.baseTypes.findSome? fun base => s.catalog.findMember? base name s.inheritedMode true with
  | none => rfl
  | some f =>
    show some (if f.member.isVoid then _ else Walk.ofType? ((s.restrict keep).typeOf? (f.restrict keep))) =
      some (Walk.restrict keep (if f.member.isVoid then _ else _))
    rw [typeOf?_restrict, Walk.ofType?_restrict]
    split <;> rfl

theorem entity?_restrict (head : Segment) :
    (s.restrict keep).entity? head = (s.entity? head).map (·.restrict keep) := by
  unfold entity?
  rw [inheritedMember?_restrict covers]
  show (if head.argumentCount.isSome then _ else _) = Option.map _ (if head.argumentCount.isSome then _ else _)
  by_cases called : head.argumentCount.isSome = true
  · rw [if_pos called, if_pos called, Option.map_map]
    rfl
  · rw [if_neg called, if_neg called]
    simp only [Option.map_or, Option.map_map]
    rfl

theorem elementWalk_restrict (w : Walk) :
    (s.restrict keep).elementWalk (w.restrict keep) = (s.elementWalk w).restrict keep := by
  cases w with
  | type t =>
    show Walk.ofType? ((s.restrict keep).elementOf? (t.restrict keep)) = _
    rw [elementOf?_restrict covers.toTrusts, Walk.ofType?_restrict]
    rfl
  | void => rfl
  | failed => rfl

variable {restricted whole : Variable → Walk}

omit covers in
theorem entityType_restrict {entity : Entity}
    (alike : ∀ v, entity = .variable v → restricted v = (whole v).restrict keep) :
    (s.restrict keep).entityType restricted (entity.restrict keep) = (s.entityType whole entity).restrict keep := by
  have declared (written : String) :
      Walk.ofType? ((s.restrict keep).resolve? written) = (Walk.ofType? (s.resolve? written)).restrict keep := by
    rw [resolve?_restrict, Walk.ofType?_restrict]
  match entity, alike with
  | .method m, _ => exact declared m.returnType
  | .variable v, alike => exact alike v rfl
  | .property p, _ => exact declared p.returnType
  | .inherited w, _ => rfl

theorem localHeadWith_restrict {head : Segment}
    (alike : ∀ v, s.entity? head = some (.variable v) → restricted v = (whole v).restrict keep) :
    (s.restrict keep).localHeadWith restricted head = (s.localHeadWith whole head).map (·.restrict keep) := by
  unfold localHeadWith
  rw [entity?_restrict covers]
  cases named : s.entity? head with
  | none => rfl
  | some entity =>
    have walk : (s.restrict keep).entityType restricted (entity.restrict keep) =
        (s.entityType whole entity).restrict keep :=
      entityType_restrict fun v same => alike v (by rw [named, same])
    simp only [Option.map_some, walk]
    cases s.entityType whole entity with
    | void => rfl
    | failed => rfl
    | type t =>
      simp only [Walk.restrict, applyIndex?_restrict covers.toTrusts]
      cases s.applyIndex? head.indexDepth t <;> rfl

/-- An expression means the same when the members that it rests on stay. -/
theorem expressionTypeWith_restrict {uses : Variable → List Found} {expression : String}
    (alike : ∀ v, (∀ f ∈ uses v, f.isKept keep = true) → restricted v = (whole v).restrict keep)
    (kept : ∀ f ∈ s.expressionUses whole uses expression, f.isKept keep = true) :
    (s.restrict keep).expressionTypeWith restricted expression =
      (s.expressionTypeWith whole expression).restrict keep := by
  unfold expressionTypeWith
  unfold expressionUses at kept
  cases segments : segmentsOf expression.toList with
  | nil => rfl
  | cons head rest =>
    simp only [segments, List.mem_append] at kept
    have local? : (s.restrict keep).localHeadWith restricted head =
        (s.localHeadWith whole head).map (·.restrict keep) := by
      refine localHeadWith_restrict covers fun v named => alike v fun f used => kept f (.inl ?_)
      rw [headUses, named]
      exact used
    simp only [local?]
    cases start : s.localHeadWith whole head with
    | some w =>
      simp only [start] at kept
      cases w with
      | type t => exact walk_restrict covers.toTrusts fun f used => kept f (.inr used)
      | void => cases rest <;> rfl
      | failed => cases rest <;> rfl
    | none =>
      simp only [start] at kept
      simp only [Option.map_none, staticHead?_restrict]
      cases static : s.staticHead? (head :: rest) with
      | none => rfl
      | some found =>
        obtain ⟨t, used⟩ := found
        rw [static] at kept
        exact walk_restrict covers.toTrusts fun f used => kept f (.inr used)

theorem variableTypeWithin_restrict (depth : Nat) (v : Variable)
    (kept : ∀ f ∈ s.variableUsesWithin depth v, f.isKept keep = true) :
    (s.restrict keep).variableTypeWithin depth v = (s.variableTypeWithin depth v).restrict keep := by
  induction depth generalizing v with
  | zero =>
    unfold variableTypeWithin
    split
    · rw [resolve?_restrict, Walk.ofType?_restrict]
    · rfl
  | succ depth ih =>
    unfold variableTypeWithin
    unfold variableUsesWithin at kept
    by_cases implicit : v.typeName ≠ "var"
    · rw [if_pos implicit, if_pos implicit, resolve?_restrict, Walk.ofType?_restrict]
    · rw [if_neg implicit] at kept
      rw [if_neg implicit, if_neg implicit]
      cases value : v.initializer with
      | none => rfl
      | some initializer =>
        simp only [value] at kept
        cases initializer with
        | expression e => exact expressionTypeWith_restrict covers ih kept
        | elementOf e =>
          show (s.restrict keep).elementWalk _ = _
          rw [expressionTypeWith_restrict covers ih kept, elementWalk_restrict covers]

theorem localHead?_restrict {head : Segment} (kept : ∀ f ∈ s.headUses s.variableUses head, f.isKept keep = true) :
    (s.restrict keep).localHead? head = (s.localHead? head).map (·.restrict keep) := by
  refine localHeadWith_restrict covers fun v named => ?_
  refine variableTypeWithin_restrict covers inferenceDepth v fun f used => kept f ?_
  rw [headUses, named]
  exact used

end Scope

end Typeahead.Lookup
