import Typeahead.Lookup.Walk
import Typeahead.Proofs.Catalog.Nesting

namespace Typeahead.Lookup

open Catalog Source

/-- The segment names a type nested in the one before it. -/
def Hop.isNested : Hop → Bool
  | .nested _ => true
  | .member _ | .extensionMethod _ | .missing => false

/-- The mode after a hop that was found. -/
def Hop.modeAfter (hop : Hop) : BindingMode := if hop.isNested then .typeStatics else .instanceMembers

theorem Hop.modeAfter_ne_allMembers (hop : Hop) : hop.modeAfter ≠ .allMembers := by
  unfold Hop.modeAfter
  split <;> simp

/-- The mode after a series of hops: an access to a type stays one while every hop names a nested type. -/
def modeAfter (mode : BindingMode) (hops : List Hop) : BindingMode :=
  if mode = .typeStatics ∧ ∀ hop ∈ hops, hop.isNested = true then .typeStatics else .instanceMembers

theorem modeAfter_nil {mode : BindingMode} (settled : mode ≠ .allMembers) : modeAfter mode [] = mode := by
  cases mode with
  | typeStatics | instanceMembers => rfl
  | allMembers => exact absurd rfl settled

theorem Walk.ofType_eq_type {t last : ResolvedType} (h : Walk.ofType t = .type last) :
    t = last ∧ t.isVoid = false := by
  unfold Walk.ofType at h
  split at h
  · simp at h
  · next valued => exact ⟨Walk.type.inj h, by simpa using valued⟩

theorem Walk.ofType_ne_failed (t : ResolvedType) : Walk.ofType t ≠ .failed := by
  unfold Walk.ofType
  split <;> simp

namespace Scope

variable {s : Scope} {t head last mid : ResolvedType} {mode : BindingMode} {nonPublic : Bool} {seg : Segment}
  {segments first more rest : List Segment}

/-- The hops that the segments followed from a type take; none after a hop that cannot be gone on from. -/
def hops (s : Scope) (t : ResolvedType) (mode : BindingMode) (nonPublic : Bool) : List Segment → List Hop
  | [] => []
  | seg :: rest =>
    let hop := s.hop t seg mode nonPublic
    hop ::
      if hop.isVoid then []
      else
        match s.step t seg hop with
        | none => []
        | some (next, mode) => s.hops next mode s.nonPublic rest

/-- Nested types are looked for where a type is accessed, and only bare segments name them. -/
theorem hop_eq_nested {info : TypeInfo} (h : s.hop t seg mode nonPublic = .nested info) :
    mode = .typeStatics ∧ seg.isPlain = true ∧ s.catalog.findType? (t.fullName ++ "+" ++ seg.name) = some info := by
  unfold hop at h
  split at h
  · simp at h
  · split at h
    · next statics =>
      split at h
      · next found =>
        split at found
        · next plain => exact ⟨statics, plain, Hop.nested.inj h ▸ found⟩
        · simp at found
      · simp at h
    · split at h <;> simp at h

theorem mode_eq_of_isNested_hop (h : (s.hop t seg mode nonPublic).isNested = true) : mode = .typeStatics := by
  cases shape : s.hop t seg mode nonPublic with
  | nested info => exact (hop_eq_nested shape).1
  | member | extensionMethod | missing => rw [shape] at h; exact Bool.noConfusion h

/-- A step goes on in the mode of its hop. -/
theorem mode_of_step {hop : Hop} {next : ResolvedType} {later : BindingMode}
    (h : s.step t seg hop = some (next, later)) : later = hop.modeAfter := by
  unfold step at h
  obtain ⟨⟨landed, landedMode⟩, lands, indexed⟩ := Option.bind_eq_some_iff.mp h
  obtain ⟨_, _, same⟩ := Option.map_eq_some_iff.mp indexed
  obtain ⟨-, rfl⟩ := Prod.mk.inj same
  cases hop with
  | nested info =>
    simp only [land, Option.some.injEq, Prod.mk.injEq] at lands
    exact lands.2.symm
  | missing => simp [land] at lands
  | member found | extensionMethod found =>
    simp only [land, Option.map_eq_some_iff, Prod.mk.injEq] at lands
    obtain ⟨_, _, _, mode⟩ := lands
    exact mode.symm

theorem step_nested {info : TypeInfo} (plain : seg.isPlain = true) :
    s.step t seg (.nested info) = some ({ info }, .typeStatics) := by
  have unindexed : seg.indexDepth = 0 := by
    simp only [Segment.isPlain, Bool.and_eq_true, beq_iff_eq] at plain
    exact plain.2
  simp [step, land, unindexed, applyIndex?]

/-- Segments are followed to a type only by a first hop with a value and a known type. -/
theorem follow_cons_eq_type (h : s.follow t mode nonPublic (seg :: more) = .type last) :
    ∃ next later, (s.hop t seg mode nonPublic).isVoid = false ∧
      s.step t seg (s.hop t seg mode nonPublic) = some (next, later) ∧
      s.follow next later s.nonPublic more = .type last := by
  unfold follow at h
  simp only at h
  split at h
  · split at h <;> simp at h
  · next valued =>
    cases reached : s.step t seg (s.hop t seg mode nonPublic) with
    | none => simp [reached] at h
    | some landed =>
      rw [reached] at h
      exact ⟨landed.1, landed.2, by simpa using valued, rfl, h⟩

theorem follow_cons {next : ResolvedType} {later : BindingMode}
    (valued : (s.hop t seg mode nonPublic).isVoid = false)
    (reached : s.step t seg (s.hop t seg mode nonPublic) = some (next, later)) :
    s.follow t mode nonPublic (seg :: more) = s.follow next later s.nonPublic more := by
  simp [follow, valued, reached]

theorem hops_cons {next : ResolvedType} {later : BindingMode}
    (valued : (s.hop t seg mode nonPublic).isVoid = false)
    (reached : s.step t seg (s.hop t seg mode nonPublic) = some (next, later)) :
    s.hops t mode nonPublic (seg :: more) =
      s.hop t seg mode nonPublic :: s.hops next later s.nonPublic more := by
  simp [hops, valued, reached]

/-- A chain goes on after its first hop in the mode of that hop. -/
theorem modeAfter_hop_cons (later : List Hop) :
    modeAfter mode (s.hop t seg mode nonPublic :: later) =
      modeAfter (s.hop t seg mode nonPublic).modeAfter later := by
  unfold modeAfter Hop.modeAfter
  cases nested : (s.hop t seg mode nonPublic).isNested with
  | false => simp [nested]
  | true =>
    obtain rfl := mode_eq_of_isNested_hop nested
    simp [nested]

/-- Past the first segment the mode is that of the last hop, and the choice of members is the scope's. -/
theorem follow_append_of_settled (settled : mode ≠ .allMembers)
    (reached : s.follow t mode s.nonPublic first = .type mid) :
    s.follow t mode s.nonPublic (first ++ rest) =
      s.follow mid (modeAfter mode (s.hops t mode s.nonPublic first)) s.nonPublic rest := by
  induction first generalizing t mode with
  | nil =>
    obtain ⟨rfl, _⟩ := Walk.ofType_eq_type reached
    simp only [List.nil_append, hops, modeAfter_nil settled]
  | cons seg more ih =>
    obtain ⟨next, later, valued, stepped, reached⟩ := follow_cons_eq_type reached
    obtain rfl := mode_of_step stepped
    rw [List.cons_append, follow_cons valued stepped, hops_cons valued stepped, modeAfter_hop_cons]
    exact ih (Hop.modeAfter_ne_allMembers _) reached

theorem follow_append_of_type (nonempty : first ≠ []) (reached : s.follow t mode nonPublic first = .type mid) :
    s.follow t mode nonPublic (first ++ rest) =
      s.follow mid (modeAfter mode (s.hops t mode nonPublic first)) s.nonPublic rest := by
  cases first with
  | nil => exact absurd rfl nonempty
  | cons seg more =>
    obtain ⟨next, later, valued, stepped, reached⟩ := follow_cons_eq_type reached
    obtain rfl := mode_of_step stepped
    rw [List.cons_append, follow_cons valued stepped, hops_cons valued stepped, modeAfter_hop_cons]
    exact follow_append_of_settled (Hop.modeAfter_ne_allMembers _) reached

/-- Nothing that follows mends a chain that fails. -/
theorem follow_append_of_failed (failed : s.follow t mode nonPublic first = .failed) :
    s.follow t mode nonPublic (first ++ rest) = .failed := by
  induction first generalizing t mode nonPublic with
  | nil => exact absurd failed (Walk.ofType_ne_failed t)
  | cons seg more ih =>
    rw [List.cons_append]
    unfold follow at failed ⊢
    simp only at failed ⊢
    by_cases void : (s.hop t seg mode nonPublic).isVoid = true
    · rw [if_pos void] at failed ⊢
      cases more with
      | cons second more => simp
      | nil =>
        -- a valueless hop that ends no chain continues none
        cases ends : (s.hop t seg mode nonPublic).mayEnd seg with
        | true => simp [ends] at failed
        | false => simp
    · rw [if_neg void] at failed ⊢
      cases stepped : s.step t seg (s.hop t seg mode nonPublic) with
      | none => rfl
      | some landed =>
        rw [stepped] at failed
        exact ih failed

theorem valued_of_walk_eq_type (reached : s.walk head segments mode nonPublic = .type last) :
    head.isVoid = false ∧ s.follow head mode nonPublic segments = .type last := by
  unfold walk at reached
  split at reached
  · simp at reached
  · next valued => exact ⟨by simpa using valued, reached⟩

theorem valued_of_follow_eq_type (reached : s.follow t mode nonPublic segments = .type last) :
    last.isVoid = false := by
  induction segments generalizing t mode nonPublic with
  | nil =>
    obtain ⟨rfl, valued⟩ := Walk.ofType_eq_type reached
    exact valued
  | cons seg more ih =>
    obtain ⟨_, _, _, _, reached⟩ := follow_cons_eq_type reached
    exact ih reached

theorem length_hops (reached : s.follow t mode nonPublic segments = .type last) :
    (s.hops t mode nonPublic segments).length = segments.length := by
  induction segments generalizing t mode nonPublic with
  | nil => rfl
  | cons seg more ih =>
    obtain ⟨_, _, valued, stepped, reached⟩ := follow_cons_eq_type reached
    rw [hops_cons valued stepped, List.length_cons, List.length_cons, ih reached]

/-- Walking is compositional: a chain in two parts is walked by walking the second part from where the
first ends, with the scope's choice of members, as an access to a type if the first part is one that goes
through nested types alone and as an access to an instance otherwise. A first part that fails fails the
whole. -/
theorem walk_append (s : Scope) (head : ResolvedType) {first : List Segment} (nonempty : first ≠ [])
    (rest : List Segment) (mode : BindingMode) (nonPublic : Bool) :
    (∀ mid, s.walk head first mode nonPublic = .type mid →
        s.walk head (first ++ rest) mode nonPublic =
          s.walk mid rest (modeAfter mode (s.hops head mode nonPublic first)) s.nonPublic) ∧
      (s.walk head first mode nonPublic = .failed → s.walk head (first ++ rest) mode nonPublic = .failed) := by
  refine ⟨fun mid reached => ?_, fun failed => ?_⟩
  · obtain ⟨valued, followed⟩ := valued_of_walk_eq_type reached
    have midValued := valued_of_follow_eq_type followed
    simp only [walk, valued, midValued]
    exact follow_append_of_type nonempty followed
  · unfold walk at failed ⊢
    split at failed
    · simp at failed
    · next valued =>
      rw [if_neg valued]
      exact follow_append_of_failed failed

/-- A type with a nested type, whose instances lead back to it. -/
def garden : TypeInfo := { namespaceName := some "Acme", name := "Garden", kind := .classType }

def gardenGate : TypeInfo :=
  { namespaceName := some "Acme", name := "Garden+Gate", kind := .classType
    members := [
      { name := "Main", kind := .property, typeName := "Acme.Garden.Gate", isStatic := true },
      { name := "Width", kind := .field, typeName := "Acme.Fence" }] }

/-- A type with a member that has the name of its type. -/
def fence : TypeInfo :=
  { namespaceName := some "Acme", name := "Fence", kind := .classType
    members := [{ name := "Gate", kind := .property, typeName := "Acme.Garden.Gate" }] }

def gardenScope : Scope :=
  { catalog := ⟨{ workspace := ["Acme"] }, [.memory [⟨"Acme", [garden, gardenGate, fence]⟩]]⟩
    context := Context.of [] 0
    nonPublic := false }

theorem walk_append_nested_then_member :
    gardenScope.walk { info := garden } [{ name := "Gate" }, { name := "Main" }] .typeStatics false =
        .type { info := gardenGate } ∧
      gardenScope.walk { info := garden } [{ name := "Gate" }, { name := "Main" }, { name := "Width" }]
          .typeStatics false =
        gardenScope.walk { info := gardenGate } [{ name := "Width" }] .instanceMembers false ∧
      gardenScope.walk { info := garden } [{ name := "Gate" }, { name := "Width" }] .typeStatics false = .failed ∧
      gardenScope.walk { info := garden } [{ name := "Gate" }, { name := "Width" }, { name := "Gate" }]
          .typeStatics false = .failed := by
  have reached : gardenScope.walk { info := garden } [{ name := "Gate" }, { name := "Main" }] .typeStatics false =
      .type { info := gardenGate } := by decide +kernel
  have failed : gardenScope.walk { info := garden } [{ name := "Gate" }, { name := "Width" }] .typeStatics false =
      .failed := by decide +kernel
  have mode : modeAfter .typeStatics
      (gardenScope.hops { info := garden } .typeStatics false [{ name := "Gate" }, { name := "Main" }]) =
        .instanceMembers := by decide +kernel
  have goesOn := (walk_append gardenScope { info := garden } (List.cons_ne_nil _ _) [{ name := "Width" }]
    .typeStatics false).1 _ reached
  rw [mode] at goesOn
  exact ⟨reached, goesOn, failed, (walk_append gardenScope { info := garden } (List.cons_ne_nil _ _)
    [{ name := "Gate" }] .typeStatics false).2 failed⟩

/-- A chain through nested types alone accesses a type from its start and ends in a nested type. -/
theorem endsInNestedType_of_hops (nonempty : segments ≠ [])
    (bare : ∀ seg ∈ segments, '.' ∉ seg.name.toList ∧ '+' ∉ seg.name.toList)
    (reached : s.follow t mode nonPublic segments = .type last)
    (nested : ∀ hop ∈ s.hops t mode nonPublic segments, hop.isNested = true) :
    endsInNestedType segments last = true := by
  induction segments generalizing t mode nonPublic with
  | nil => exact absurd rfl nonempty
  | cons seg more ih =>
    obtain ⟨next, later, valued, stepped, reached⟩ := follow_cons_eq_type reached
    rw [hops_cons valued stepped] at nested
    cases more with
    | cons second more =>
      exact ih (by simp) (fun seg inside => bare seg (List.mem_cons_of_mem _ inside)) reached
        fun hop inside => nested hop (List.mem_cons_of_mem _ inside)
    | nil =>
      have first := nested _ List.mem_cons_self
      cases shape : s.hop t seg mode nonPublic with
      | member | extensionMethod | missing => rw [shape] at first; exact Bool.noConfusion first
      | nested info =>
        obtain ⟨_, plain, found⟩ := hop_eq_nested shape
        rw [shape, step_nested plain] at stepped
        obtain ⟨rfl, -⟩ := Prod.mk.inj (Option.some.inj stepped)
        obtain ⟨rfl, -⟩ := Walk.ofType_eq_type reached
        obtain ⟨undotted, unnested⟩ := bare seg List.mem_cons_self
        obtain ⟨isNested, simple⟩ :=
          TypeInfo.simpleName_of_fullName_eq (fullName_of_findType? found) undotted unnested
        simp [endsInNestedType, plain, isNested, simple]

theorem mode_eq_of_isNested_hops (nonempty : segments ≠ [])
    (nested : ∀ hop ∈ s.hops t mode nonPublic segments, hop.isNested = true) : mode = .typeStatics := by
  cases segments with
  | nil => exact absurd rfl nonempty
  | cons seg more => exact mode_eq_of_isNested_hop (nested _ List.mem_cons_self)

theorem complete_of_walk_eq_type (reached : s.walk head segments mode nonPublic = .type last)
    (nonempty : segments ≠ []) :
    s.complete head segments mode nonPublic =
      .ofItems (s.enumerate last (if endsInNestedType segments last then .typeStatics else .instanceMembers)
        s.nonPublic) := by
  have some : segments.isEmpty = false := by simpa using nonempty
  simp only [complete, reached, some, Bool.false_eq_true, if_false]
  split <;> rfl

/-- What a chain that ends in a type lists. Past a member or an extension method it lists an instance,
except where the last segment is the bare name of the nested type that the member leads to. Chains
through nested types alone start from a type and list the statics of the last one. -/
theorem complete_after_hops (reached : s.walk head segments mode nonPublic = .type last) :
    let hops := s.hops head mode nonPublic segments
    hops.length = segments.length ∧
      (segments = [] → s.complete head segments mode nonPublic = .ofItems (s.enumerate last mode nonPublic)) ∧
      ((∃ hop ∈ hops, hop.isNested = false) →
        s.complete head segments mode nonPublic =
          .ofItems (s.enumerate last
            (if endsInNestedType segments last then .typeStatics else .instanceMembers) s.nonPublic)) ∧
      (segments ≠ [] → (∀ hop ∈ hops, hop.isNested = true) →
        mode = .typeStatics ∧
          ((∀ seg ∈ segments, '.' ∉ seg.name.toList ∧ '+' ∉ seg.name.toList) →
            s.complete head segments mode nonPublic = .ofItems (s.enumerate last .typeStatics s.nonPublic))) := by
  obtain ⟨_, followed⟩ := valued_of_walk_eq_type reached
  refine ⟨length_hops followed, ?_, ?_, ?_⟩
  · rintro rfl
    simp [complete, reached]
  · rintro ⟨hop, taken, _⟩
    refine complete_of_walk_eq_type reached ?_
    rintro rfl
    simp [hops] at taken
  · intro nonempty nested
    refine ⟨mode_eq_of_isNested_hops nonempty nested, fun bare => ?_⟩
    rw [complete_of_walk_eq_type reached nonempty, endsInNestedType_of_hops nonempty bare followed nested]
    rfl

theorem complete_after_hops_member :
    gardenScope.walk { info := garden } [{ name := "Gate" }, { name := "Main" }] .typeStatics false =
        .type { info := gardenGate } ∧
      gardenScope.complete { info := garden } [{ name := "Gate" }, { name := "Main" }] .typeStatics false =
        .ofItems (gardenScope.enumerate { info := gardenGate } .instanceMembers false) := by
  have reached : gardenScope.walk { info := garden } [{ name := "Gate" }, { name := "Main" }] .typeStatics false =
      .type { info := gardenGate } := by decide +kernel
  exact ⟨reached, (complete_after_hops reached).2.2.1 (by decide +kernel)⟩

/-- After a member with the name of its nested type the statics of the type are listed. -/
theorem complete_lists_statics_after_member :
    ∃ last found,
      gardenScope.walk { info := fence } [{ name := "Gate" }] .instanceMembers false = .type last ∧
      gardenScope.hops { info := fence } .instanceMembers false [{ name := "Gate" }] = [.member found] ∧
      gardenScope.complete { info := fence } [{ name := "Gate" }] .instanceMembers false =
        .ofItems (gardenScope.enumerate last .typeStatics false) ∧
      gardenScope.complete { info := fence } [{ name := "Gate" }] .instanceMembers false ≠
        .ofItems (gardenScope.enumerate last .instanceMembers false) := by
  refine ⟨{ info := gardenGate }, ⟨{ name := "Gate", kind := .property, typeName := "Acme.Garden.Gate" },
    { info := fence }⟩, ?_⟩
  decide +kernel

end Scope

end Typeahead.Lookup
