import Typeahead.Lookup.Stage

namespace Typeahead.Lookup

open Catalog Source

/-- The dotted name that segments write. -/
def dottedName (segments : List Segment) : String := ".".intercalate (segments.map (·.name))

theorem drop_head (earlier : List Segment) (last : Segment) (rest : List Segment) :
    (earlier ++ last :: rest).drop (earlier.length + 1) = rest := by
  rw [List.append_cons]
  exact List.drop_left' (by simp)

theorem dottedName_concat (front : List Segment) (seg : Segment) :
    dottedName (front ++ [seg]) =
      if front.length = 0 then seg.name else dottedName front ++ "." ++ seg.name := by
  rw [dottedName, List.map_append, List.map_singleton]
  cases front with
  | nil => simp
  | cons first others =>
    rw [String.intercalate_append_of_ne_nil (by simp) (by simp), String.intercalate_singleton]
    rfl

namespace Scope

/-- Segments that write the name of a type, behind those in front as no fewer of them do: the last one carries no
call, and those before it neither a call nor an index. -/
structure IsTypeHead (s : Scope) (front earlier : List Segment) (last : Segment) (t : ResolvedType) : Prop where
  plain : ∀ seg ∈ earlier, seg.isPlain = true
  uncalled : last.argumentCount = none
  named : s.resolve? (dottedName (front ++ earlier ++ [last])) = some t
  shortest : ∀ shorter, shorter ≠ [] → shorter <+: earlier → s.resolve? (dottedName (front ++ shorter)) = none

variable {s : Scope} {t : ResolvedType} {front earlier segments rest : List Segment} {seg last : Segment} {used : Nat}

theorem isTypeHead_nil :
    s.IsTypeHead front [] last t ↔
      last.argumentCount = none ∧ s.resolve? (dottedName (front ++ [last])) = some t := by
  constructor
  · intro head
    exact ⟨head.uncalled, by simpa using head.named⟩
  · rintro ⟨uncalled, named⟩
    exact ⟨by simp, uncalled, by simpa using named, fun shorter nonempty starts =>
      absurd (List.prefix_nil.mp starts) nonempty⟩

theorem isTypeHead_cons :
    s.IsTypeHead front (seg :: earlier) last t ↔
      seg.isPlain = true ∧ s.resolve? (dottedName (front ++ [seg])) = none ∧
        s.IsTypeHead (front ++ [seg]) earlier last t := by
  constructor
  · intro head
    obtain ⟨bare, plain⟩ := List.forall_mem_cons.mp head.plain
    refine ⟨bare, head.shortest [seg] (by simp) (List.cons_prefix_cons.mpr ⟨rfl, List.nil_prefix⟩), plain,
      head.uncalled, by simpa using head.named, fun shorter _ starts => ?_⟩
    simpa using head.shortest (seg :: shorter) (by simp) (List.cons_prefix_cons.mpr ⟨rfl, starts⟩)
  · rintro ⟨bare, unnamed, head⟩
    refine ⟨List.forall_mem_cons.mpr ⟨bare, head.plain⟩, head.uncalled, by simpa using head.named,
      fun shorter nonempty starts => ?_⟩
    obtain ⟨first, shorter, rfl⟩ := List.exists_cons_of_ne_nil nonempty
    obtain ⟨rfl, within⟩ := List.cons_prefix_cons.mp starts
    by_cases single : shorter = []
    · rw [single]
      exact unnamed
    · simpa using head.shortest shorter single within

/-- One segment more behind those that name no type. -/
theorem staticHeadFrom_cons :
    s.staticHeadFrom (dottedName front) front.length (seg :: rest) =
      if seg.argumentCount.isSome then none
      else
        match s.resolve? (dottedName (front ++ [seg])) with
        | some t => some (t, front.length + 1)
        | none =>
          if seg.indexDepth > 0 then none
          else s.staticHeadFrom (dottedName (front ++ [seg])) (front ++ [seg]).length rest := by
  have name := dottedName_concat front seg
  cases named : s.resolve? (dottedName (front ++ [seg])) <;>
    simp only [staticHeadFrom, ← name, named, List.length_append, List.length_singleton]

theorem exists_of_staticHeadFrom
    (found : s.staticHeadFrom (dottedName front) front.length segments = some (t, used)) :
    ∃ earlier last rest, segments = earlier ++ last :: rest ∧ used = (front ++ earlier).length + 1 ∧
      s.IsTypeHead front earlier last t := by
  induction segments generalizing front with
  | nil => simp [staticHeadFrom] at found
  | cons seg rest ih =>
    rw [staticHeadFrom_cons] at found
    split at found
    · simp at found
    · next uncalled =>
      have noCall : seg.argumentCount = none := by simpa using uncalled
      split at found
      · next u named =>
        obtain ⟨rfl, rfl⟩ := Prod.mk.inj (Option.some.inj found)
        exact ⟨[], seg, rest, rfl, by simp, isTypeHead_nil.mpr ⟨noCall, named⟩⟩
      · next unnamed =>
        split at found
        · simp at found
        · next unindexed =>
          obtain ⟨earlier, last, later, rfl, rfl, head⟩ := ih found
          have bare : seg.isPlain = true := by simp [Segment.isPlain, noCall, Nat.eq_zero_of_not_pos unindexed]
          exact ⟨seg :: earlier, last, later, rfl, by simp, isTypeHead_cons.mpr ⟨bare, unnamed, head⟩⟩

theorem IsTypeHead.staticHeadFrom (head : s.IsTypeHead front earlier last t) (rest : List Segment) :
    s.staticHeadFrom (dottedName front) front.length (earlier ++ last :: rest) =
      some (t, (front ++ earlier).length + 1) := by
  induction earlier generalizing front with
  | nil =>
    obtain ⟨uncalled, named⟩ := isTypeHead_nil.mp head
    simp [staticHeadFrom_cons, uncalled, named]
  | cons seg earlier ih =>
    obtain ⟨bare, unnamed, further⟩ := isTypeHead_cons.mp head
    simp only [Segment.isPlain, Bool.and_eq_true, Option.isNone_iff_eq_none, beq_iff_eq] at bare
    rw [List.cons_append, staticHeadFrom_cons, bare.1, bare.2, unnamed, ih further]
    simp

/-- The search finds the shortest run of leading segments that name a type. -/
theorem staticHead?_eq_some_iff :
    s.staticHead? segments = some (t, used) ↔
      ∃ earlier last rest, segments = earlier ++ last :: rest ∧ used = earlier.length + 1 ∧
        s.IsTypeHead [] earlier last t := by
  constructor
  · intro found
    have fromStart : s.staticHeadFrom (dottedName []) ([] : List Segment).length segments = some (t, used) := found
    simpa using exists_of_staticHeadFrom fromStart
  · rintro ⟨earlier, last, rest, rfl, rfl, head⟩
    exact head.staticHeadFrom rest

/-- An index behind the name is no part of it. -/
theorem IsTypeHead.withIndex (head : s.IsTypeHead front earlier last t) (depth : Nat) :
    s.IsTypeHead front earlier { last with indexDepth := depth } t := by
  have sameName : dottedName (front ++ earlier ++ [{ last with indexDepth := depth }]) =
      dottedName (front ++ earlier ++ [last]) := by
    simp [dottedName]
  exact ⟨head.plain, head.uncalled, sameName ▸ head.named, head.shortest⟩

theorem IsTypeHead.forall_isPlain_iff (head : s.IsTypeHead front earlier last t) :
    (∀ seg ∈ earlier ++ [last], seg.isPlain = true) ↔ last.indexDepth = 0 := by
  have lastPlain : last.isPlain = true ↔ last.indexDepth = 0 := by simp [Segment.isPlain, head.uncalled]
  simp only [List.mem_append, List.mem_singleton, or_imp, forall_and, forall_eq, lastPlain]
  exact and_iff_right head.plain

theorem IsTypeHead.staticChain (head : s.IsTypeHead [] earlier last t) (rest : List Segment) :
    s.staticChain (earlier ++ last :: rest) = s.complete t rest .typeStatics s.nonPublic := by
  have found : s.staticHead? (earlier ++ last :: rest) = some (t, earlier.length + 1) := head.staticHeadFrom rest
  simp only [Scope.staticChain, found, drop_head]

theorem IsTypeHead.expressionType (head : s.IsTypeHead [] earlier last t) {expression : String}
    (reads : segmentsOf expression.toList = earlier ++ last :: rest)
    (undeclared : ∀ first ∈ (earlier ++ last :: rest).head?, s.localHead? first = none) :
    s.expressionType expression = s.walk t rest .typeStatics s.nonPublic := by
  have found : s.staticHead? (earlier ++ last :: rest) = some (t, earlier.length + 1) := head.staticHeadFrom rest
  obtain ⟨first, others, shape⟩ : ∃ first others, earlier ++ last :: rest = first :: others :=
    List.exists_cons_of_ne_nil (by simp)
  have noEntity : s.localHeadWith s.variableType first = none := undeclared first (by simp [shape])
  rw [shape] at found
  rw [Scope.expressionType, expressionTypeWith, reads, shape]
  simp only [noEntity, found]
  rw [← shape, drop_head]

/-- What an indexed name leads to that stands alone and is the name of no type: nothing, or an instance of what a
static import declares under the name. -/
theorem staticChain_indexed (indexed : 0 < seg.indexDepth) (noType : s.staticHead? [seg] = none)
    (notOwn : s.context.typeName? ≠ some seg.name) :
    s.staticChain [seg] = .notApplicable ∨ s.staticChain [seg] = .empty ∨
      ∃ last, s.staticChain [seg] = .ofItems (s.enumerate last .instanceMembers s.nonPublic) := by
  have notPlain : seg.isPlain = false := by simp [Segment.isPlain, Nat.pos_iff_ne_zero.mp indexed]
  have other : (s.context.typeName? == some seg.name) = false := beq_eq_false_iff_ne.mpr notOwn
  simp only [Scope.staticChain, noType, other, Bool.and_false, Bool.false_eq_true, if_false]
  split
  · next t _ =>
    unfold complete
    split
    · exact .inl rfl
    · exact .inr (.inl rfl)
    · next last _ =>
      have instances : endsInNestedType [seg] last = false := by simp [endsInNestedType, notPlain]
      rw [instances]
      exact .inr (.inr ⟨last, rfl⟩)
  · exact .inl rfl

/-- The segments in front of the one that completes the name of a type are plain, and that one carries no call; all
of them are plain exactly if no index stands behind it. Such an index counts for nothing: the chain is answered,
and has the type, as without it. An indexed name that stands alone and is the name of no known type is answered
with statics only if it is the name of the type around the caret. -/
theorem indexed_type_head (s : Scope) :
    (∀ segments t used, s.staticHead? segments = some (t, used) →
      ∃ earlier last rest, segments = earlier ++ last :: rest ∧ used = earlier.length + 1 ∧
        s.IsTypeHead [] earlier last t ∧
        ((∀ seg ∈ segments.take used, seg.isPlain = true) ↔ last.indexDepth = 0) ∧
        s.staticChain segments = s.staticChain (earlier ++ { last with indexDepth := 0 } :: rest) ∧
        ∀ expression : String, segmentsOf expression.toList = segments →
          (∀ first ∈ segments.head?, s.localHead? first = none) →
            s.expressionType expression = s.walk t rest .typeStatics s.nonPublic) ∧
      ∀ seg, 0 < seg.indexDepth → s.staticHead? [seg] = none →
        (s.context.typeName? = some seg.name → s.staticChain [seg] = s.ownStatics) ∧
          (s.context.typeName? ≠ some seg.name →
            s.staticChain [seg] = .notApplicable ∨ s.staticChain [seg] = .empty ∨
              ∃ last, s.staticChain [seg] = .ofItems (s.enumerate last .instanceMembers s.nonPublic)) := by
  refine ⟨fun segments t used found => ?_, fun seg indexed noType => ⟨fun own => ?_, ?_⟩⟩
  · obtain ⟨earlier, last, rest, rfl, rfl, head⟩ := staticHead?_eq_some_iff.mp found
    have written : (earlier ++ last :: rest).take (earlier.length + 1) = earlier ++ [last] := by
      rw [List.append_cons]
      exact List.take_left' (by simp)
    refine ⟨earlier, last, rest, rfl, rfl, head, ?_, ?_, fun expression => head.expressionType⟩
    · rw [written]
      exact head.forall_isPlain_iff
    · rw [head.staticChain, (head.withIndex 0).staticChain]
  · simp [Scope.staticChain, noType, own]
  · exact staticChain_indexed indexed noType

/-- A type with a static member and an instance member. -/
def gate : TypeInfo :=
  { namespaceName := some "Acme", name := "Gate", kind := .classType
    members := [
      { name := "All", kind := .property, typeName := "Acme.Gate[]", isStatic := true },
      { name := "Next", kind := .property, typeName := "Acme.Gate" }] }

def gateAssembly : Assembly :=
  ⟨"Acme", [gate, { namespaceName := some "System", name := "Array", kind := .classType }]⟩

/-- The body of a method, in a type with a static field. -/
def fieldCode : List Char := "class Field \x7b static Gate near; void Stop() \x7b ".toList

def fieldScope : Scope :=
  { catalog := ⟨{ workspace := ["Acme"] }, [.memory [gateAssembly]]⟩
    context := Context.of fieldCode 46
    nonPublic := false }

/-- The type around the caret has no bases, so nothing is inherited in the text. -/
theorem inherited_fieldScope : fieldScope.context.inherited = {} := by
  have region : fieldScope.context.region = some ⟨0, 13, 46, "Field", [], false⟩ := by decide +kernel
  have noBases : inheritedRegions fieldScope.context.text ⟨0, 13, 46, "Field", [], false⟩ = [] := by
    simp [inheritedRegions, maxBases, baseRegions]
  calc
    fieldScope.context.inherited =
        (fieldScope.context.region.map (inheritedDeclarations fieldScope.context.text)).getD {} := rfl
    _ = inheritedDeclarations fieldScope.context.text ⟨0, 13, 46, "Field", [], false⟩ := by rw [region]; rfl
    _ = {} := by rw [inheritedDeclarations, noBases]; rfl

theorem localHead?_fieldScope : fieldScope.localHead? { name := "Acme" } = none := by
  have undeclared : fieldScope.entity? { name := "Acme" } = none := by
    rw [entity?, inherited_fieldScope]
    decide +kernel
  rw [localHead?, localHeadWith, undeclared]
  rfl

theorem indexed_type_head_gate :
    fieldScope.staticHead? [{ name := "Acme" }, { name := "Gate" }, { name := "All", indexDepth := 1 }] =
        some ({ info := gate }, 2) ∧
      fieldScope.expressionType "Acme.Gate.All[0]" =
        fieldScope.walk { info := gate } [{ name := "All", indexDepth := 1 }] .typeStatics false ∧
      fieldScope.staticHead? [{ name := "All", indexDepth := 1 }] = none ∧
      (fieldScope.staticChain [{ name := "All", indexDepth := 1 }] = .notApplicable ∨
        fieldScope.staticChain [{ name := "All", indexDepth := 1 }] = .empty ∨
        ∃ last, fieldScope.staticChain [{ name := "All", indexDepth := 1 }] =
          .ofItems (fieldScope.enumerate last .instanceMembers false)) := by
  have found : fieldScope.staticHead? [{ name := "Acme" }, { name := "Gate" }, { name := "All", indexDepth := 1 }] =
      some ({ info := gate }, 2) := by decide +kernel
  have noType : fieldScope.staticHead? [{ name := "All", indexDepth := 1 }] = none := by decide +kernel
  have reads : segmentsOf "Acme.Gate.All[0]".toList =
      [{ name := "Acme" }, { name := "Gate" }, { name := "All", indexDepth := 1 }] := by decide +kernel
  obtain ⟨heads, alone⟩ := indexed_type_head fieldScope
  obtain ⟨earlier, last, rest, split, count, -, -, -, typed⟩ := heads _ _ _ found
  have behind : rest = [{ name := "All", indexDepth := 1 }] := by
    have dropped := drop_head earlier last rest
    rw [← split, ← count] at dropped
    exact dropped.symm
  refine ⟨found, ?_, noType, (alone _ (by decide) noType).2 (by decide +kernel)⟩
  rw [typed _ reads (by simpa using localHead?_fieldScope), behind]
  rfl

/-- An index behind the name of a type and one behind the name of the type around the caret: the statics are listed,
and an initializer has the type itself. -/
theorem index_behind_type_name_dropped :
    fieldScope.staticHead? [{ name := "Acme" }, { name := "Gate", indexDepth := 1 }] = some ({ info := gate }, 2) ∧
      ({ name := "Gate", indexDepth := 1 } : Segment).isPlain = false ∧
      (fieldScope.staticChain [{ name := "Acme" }, { name := "Gate", indexDepth := 1 }]).items.map (·.displayText) =
        ["All"] ∧
      fieldScope.expressionType "Acme.Gate[0]" = .type { info := gate } ∧
      (fieldScope.staticChain [{ name := "Field", indexDepth := 1 }]).items.map (·.displayText) = ["near"] := by
  have found : fieldScope.staticHead? [{ name := "Acme" }, { name := "Gate", indexDepth := 1 }] =
      some ({ info := gate }, 2) := by decide +kernel
  have reads : segmentsOf "Acme.Gate[0]".toList = [{ name := "Acme" }, { name := "Gate", indexDepth := 1 }] := by
    decide +kernel
  have typed : fieldScope.expressionType "Acme.Gate[0]" = .type { info := gate } := by
    have undeclared : fieldScope.localHeadWith fieldScope.variableType { name := "Acme" } = none :=
      localHead?_fieldScope
    rw [Scope.expressionType, expressionTypeWith, reads]
    simp only [undeclared, found]
    decide +kernel
  exact ⟨found, by decide, by decide +kernel, typed, by decide +kernel⟩

end Scope

end Typeahead.Lookup
