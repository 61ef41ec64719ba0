import Typeahead.Lookup.Code
import Typeahead.Proofs.Restriction.Head

namespace Typeahead.Lookup

open Text Catalog Source

namespace Scope

def localUses (s : Scope) : List Segment → List Found
  | [] => []
  | head :: rest =>
    s.headUses s.variableUses head ++
      match s.localHead? head with
      | some (.type t) => s.walkUses t rest .instanceMembers s.nonPublic
      | _ => []

def staticUses (s : Scope) (segments : List Segment) : List Found :=
  match s.staticHead? segments with
  | some (t, used) => s.walkUses t (segments.drop used) .typeStatics s.nonPublic
  | none =>
    match segments with
    | [] => []
    | head :: _ =>
      match s.staticImports.find? fun t => (s.catalog.findMember? t head.name .typeStatics false).isSome with
      | some t => s.walkUses t segments .typeStatics false
      | none => []

/-- The members that a chain rests on, from a declared head or from a type. -/
def chainUses (s : Scope) (segments : List Segment) : List Found := s.localUses segments ++ s.staticUses segments

/-- A chain that begins with the instance at hand is also read without that word. -/
def receiverUses (s : Scope) : List Segment → List Found
  | [] => []
  | head :: rest => if (receiver? head).isSome then s.chainUses rest else []

/-- The members that the answer for a target rests on, apart from those it lists. -/
def targetUses (s : Scope) (target : Target) : List Found :=
  if target.hasDot then
    s.chainUses (segmentsOf target.chain.toList) ++ s.receiverUses (segmentsOf target.chain.toList)
  else []

variable {keep : Selection}

theorem staticImports_restrict (s : Scope) :
    (s.restrict keep).staticImports = s.staticImports.map (·.restrict keep) :=
  s.filterMap_resolve?_restrict _

variable {s : Scope} (covers : s.Covers keep)
include covers

theorem localChain_restrict {segments : List Segment} (kept : ∀ f ∈ s.localUses segments, f.isKept keep = true) :
    (s.restrict keep).localChain segments = s.localChain segments := by
  cases segments with
  | nil => rfl
  | cons head rest =>
    simp only [localUses, List.mem_append] at kept
    simp only [localChain, localHead?_restrict covers fun f used => kept f (.inl used)]
    cases start : s.localHead? head with
    | none => rfl
    | some w =>
      cases w with
      | void => rfl
      | failed => rfl
      | type t =>
        simp only [start] at kept
        show (s.restrict keep).complete (t.restrict keep) rest .instanceMembers s.nonPublic =
          s.complete t rest .instanceMembers s.nonPublic
        rw [covers.publicOnly] at kept ⊢
        exact complete_restrict covers.toTrusts fun f used => kept f (.inr used)

theorem staticChain_restrict {segments : List Segment}
    (kept : ∀ f ∈ s.staticUses segments, f.isKept keep = true) :
    (s.restrict keep).staticChain segments = s.staticChain segments := by
  unfold staticChain
  unfold staticUses at kept
  rw [staticHead?_restrict]
  cases static : s.staticHead? segments with
  | some found =>
    obtain ⟨t, used⟩ := found
    simp only [static] at kept
    show (s.restrict keep).complete (t.restrict keep) (segments.drop used) .typeStatics s.nonPublic =
      s.complete t (segments.drop used) .typeStatics s.nonPublic
    rw [covers.publicOnly] at kept ⊢
    exact complete_restrict covers.toTrusts kept
  | none =>
    cases segments with
    | nil => rfl
    | cons head rest =>
      simp only [static] at kept
      have declares (t : ResolvedType) :
          ((s.restrict keep).catalog.findMember? (t.restrict keep) head.name .typeStatics false).isSome =
            (s.catalog.findMember? t head.name .typeStatics false).isSome := by
        show ((s.catalog.restrict keep).findMember? (t.restrict keep) head.name .typeStatics false).isSome = _
        rw [findMember?_restrict_of_public covers.keepsPublic, Option.isSome_map]
      have imported : ((s.restrict keep).staticImports.find? fun t =>
            ((s.restrict keep).catalog.findMember? t head.name .typeStatics false).isSome) =
          (s.staticImports.find? fun t =>
            (s.catalog.findMember? t head.name .typeStatics false).isSome).map (·.restrict keep) := by
        rw [staticImports_restrict, List.find?_map]
        exact congrArg (fun p => Option.map _ (List.find? p s.staticImports)) (funext declares)
      show (if rest.isEmpty && s.context.typeName? == some head.name then s.ownStatics else _) =
        if rest.isEmpty && s.context.typeName? == some head.name then s.ownStatics else _
      split
      · rfl
      · simp only [imported]
        cases chosen : s.staticImports.find? fun t =>
            (s.catalog.findMember? t head.name .typeStatics false).isSome with
        | none => rfl
        | some t =>
          simp only [chosen] at kept
          exact complete_restrict covers.toTrusts kept

theorem inheritedItems_restrict (mode : BindingMode) :
    (s.restrict keep).inheritedItems mode = s.inheritedItems mode := by
  unfold inheritedItems
  rw [baseTypes_restrict, List.flatMap_map, List.flatMap_def, List.flatMap_def]
  refine congrArg List.flatten (List.map_congr_left fun base isBase => ?_)
  refine s.catalog.reachableItems_restrict fun depth ancestor above m _ _ => ?_
  exact covers.inherited base isBase ancestor (mem_ancestry_of_mem_numbered above) m

omit covers in
theorem namespaceStage_restrict (target : Target) :
    (s.restrict keep).namespaceStage target = s.namespaceStage target := by
  have types (name : String) : ((s.restrict keep).catalog.typesIn [name]).map (·.item) =
      (s.catalog.typesIn [name]).map (·.item) := by
    show ((s.catalog.restrict keep).typesIn [name]).map _ = _
    rw [typesIn_restrict, List.map_map]
    rfl
  have known : (s.restrict keep).catalog.isNamespace = s.catalog.isNamespace := s.catalog.isNamespace_restrict
  have inside : (s.restrict keep).catalog.childNamespaces = s.catalog.childNamespaces :=
    funext s.catalog.childNamespaces_restrict
  simp only [namespaceStage, known, inside, types]
  rfl

omit covers in
theorem usingStage_restrict (before : List Char) : (s.restrict keep).usingStage before = s.usingStage before := by
  have inside : (s.restrict keep).catalog.childNamespaces = s.catalog.childNamespaces :=
    funext s.catalog.childNamespaces_restrict
  have roots : (s.restrict keep).catalog.rootNamespaces = s.catalog.rootNamespaces :=
    s.catalog.rootNamespaces_restrict
  simp only [usingStage, inside, roots]

theorem visibleStage_restrict (target : Target) :
    (s.restrict keep).visibleStage target = s.visibleStage target := by
  have imported : (s.restrict keep).importedTypes.map (·.item) = s.importedTypes.map (·.item) := by
    rw [importedTypes_restrict, List.map_map]
    rfl
  have statics : ((s.restrict keep).staticImports.flatMap fun t =>
        (s.restrict keep).catalog.reachableItems t .typeStatics false false) =
      s.staticImports.flatMap fun t => s.catalog.reachableItems t .typeStatics false false := by
    rw [staticImports_restrict, List.flatMap_map]
    exact congrArg (List.flatMap · s.staticImports)
      (funext fun t => reachableItems_restrict_of_public covers.keepsPublic s.catalog t .typeStatics)
  have roots : (s.restrict keep).catalog.rootNamespaces = s.catalog.rootNamespaces :=
    s.catalog.rootNamespaces_restrict
  simp only [visibleStage, inheritedItems_restrict covers, imported, statics, roots]
  rfl

theorem receiverItems_restrict (r : Receiver) : (s.restrict keep).receiverItems r = s.receiverItems r := by
  simp only [receiverItems, inheritedItems_restrict covers]
  rfl

theorem chains_restrict {segments : List Segment} (kept : ∀ f ∈ s.chainUses segments, f.isKept keep = true) :
    (s.restrict keep).localChain segments = s.localChain segments ∧
      (s.restrict keep).staticChain segments = s.staticChain segments := by
  simp only [chainUses, List.mem_append] at kept
  exact ⟨localChain_restrict covers fun f used => kept f (.inl used),
    staticChain_restrict covers fun f used => kept f (.inr used)⟩

theorem receiverStage_restrict {target : Target} (kept : ∀ f ∈ s.targetUses target, f.isKept keep = true) :
    (s.restrict keep).receiverStage target = s.receiverStage target := by
  unfold receiverStage
  unfold targetUses at kept
  by_cases dot : target.hasDot = true
  · rw [if_pos dot] at kept
    generalize segmentsOf target.chain.toList = segments at kept ⊢
    cases segments with
    | nil => rfl
    | cons head rest =>
      simp only [receiverUses, List.mem_append] at kept
      cases word : receiver? head with
      | none => simp only [word]
      | some r =>
        have later := chains_restrict covers fun f used => kept f (.inr (by simpa [word] using used))
        simp only [word, receiverItems_restrict covers, later]
  · have missing : (!target.hasDot) = true := by rw [Bool.eq_false_iff.mpr dot]; rfl
    rw [if_pos missing, if_pos missing]

theorem dottedStages_restrict {target : Target} (kept : ∀ f ∈ s.targetUses target, f.isKept keep = true) :
    (s.restrict keep).localStage target = s.localStage target ∧
      (s.restrict keep).staticStage target = s.staticStage target := by
  unfold localStage staticStage
  unfold targetUses at kept
  by_cases dot : target.hasDot = true
  · rw [if_pos dot] at kept
    simp only [if_pos dot]
    exact chains_restrict covers fun f used => kept f (List.mem_append_left _ used)
  · simp only [if_neg dot, and_self]

/-- The stages of a lookup answer the same when the members that the lookup rests on stay. -/
theorem codeStages_restrict {target : Target} (kept : ∀ f ∈ s.targetUses target, f.isKept keep = true) :
    (s.restrict keep).codeStages target = s.codeStages target := by
  obtain ⟨fromLocal, fromStatic⟩ := dottedStages_restrict covers kept
  unfold codeStages
  rw [namespaceStage_restrict, visibleStage_restrict covers, receiverStage_restrict covers kept, fromLocal,
    fromStatic]

theorem respond_restrict {before : List Char} (kept : ∀ f ∈ s.targetUses (.of before), f.isKept keep = true) :
    (s.restrict keep).respond before = s.respond before := by
  simp only [respond, usingStage_restrict, codeStages_restrict covers kept]
  rfl

end Scope

end Typeahead.Lookup
