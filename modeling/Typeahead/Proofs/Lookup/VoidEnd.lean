import Typeahead.Lookup.Head
import Typeahead.Proofs.Lookup.Hops

namespace Typeahead.Lookup

open Catalog Source

/-- Where a chain goes on: a type, how it is accessed, and whether members that are not public count. -/
structure Stand where
  type : ResolvedType
  mode : BindingMode
  nonPublic : Bool
  deriving DecidableEq

def Hop.isExtensionMethod : Hop → Bool
  | .extensionMethod _ => true
  | .member _ | .nested _ | .missing => false

namespace Scope

/-- What a segment means where a chain stands. -/
def hopFrom (s : Scope) (stand : Stand) (seg : Segment) : Hop := s.hop stand.type seg stand.mode stand.nonPublic

/-- Where a chain stands behind some segments, each of which is found, has a value and is of a known type. -/
def behind? (s : Scope) (stand : Stand) : List Segment → Option Stand
  | [] => some stand
  | seg :: rest =>
    let hop := s.hopFrom stand seg
    if hop.isVoid then none
    else (s.step stand.type seg hop).bind fun (next, mode) => s.behind? ⟨next, mode, s.nonPublic⟩ rest

/-- How the last segment of a chain can end it without a value. -/
inductive EndsVoid (s : Scope) (stand : Stand) (last : Segment) : Prop
  /-- It names a member without a value and is not indexed. -/
  | member {found : Found} (means : s.hopFrom stand last = .member found) (void : found.member.isVoid = true)
      (bare : last.indexDepth = 0)
  /-- It names an extension method without a value, indexed or not. -/
  | extensionMethod {found : Found} (means : s.hopFrom stand last = .extensionMethod found)
      (void : found.member.isVoid = true)
  /-- What it names is declared with a value, and the type it leads to, indexes and type arguments applied, is
  that of no value. -/
  | ofType {next : ResolvedType} {mode : BindingMode} (valued : (s.hopFrom stand last).isVoid = false)
      (unnested : (s.hopFrom stand last).isNested = false)
      (reached : s.step stand.type last (s.hopFrom stand last) = some (next, mode)) (void : next.isVoid = true)

variable {s : Scope} {stand stand' : Stand} {seg last : Segment} {segments front rest : List Segment}

theorem behind?_cons {next : ResolvedType} {mode : BindingMode} (valued : (s.hopFrom stand seg).isVoid = false)
    (reached : s.step stand.type seg (s.hopFrom stand seg) = some (next, mode)) :
    s.behind? stand (seg :: rest) = s.behind? ⟨next, mode, s.nonPublic⟩ rest := by
  simp [behind?, valued, reached]

theorem exists_of_behind?_cons (h : s.behind? stand (seg :: rest) = some stand') :
    ∃ next mode, (s.hopFrom stand seg).isVoid = false ∧
      s.step stand.type seg (s.hopFrom stand seg) = some (next, mode) ∧
      s.behind? ⟨next, mode, s.nonPublic⟩ rest = some stand' := by
  simp only [behind?] at h
  split at h
  · simp at h
  · next valued =>
    obtain ⟨⟨next, mode⟩, reached, later⟩ := Option.bind_eq_some_iff.mp h
    exact ⟨next, mode, by simpa using valued, reached, later⟩

/-- A chain is followed from where it stands behind its first segments. -/
theorem follow_append_of_behind? (reached : s.behind? stand front = some stand') (rest : List Segment) :
    s.follow stand.type stand.mode stand.nonPublic (front ++ rest) =
      s.follow stand'.type stand'.mode stand'.nonPublic rest := by
  induction front generalizing stand with
  | nil =>
    obtain rfl := Option.some.inj reached
    rfl
  | cons seg front ih =>
    obtain ⟨next, mode, valued, stepped, later⟩ := exists_of_behind?_cons reached
    rw [List.cons_append, follow_cons valued stepped]
    exact ih later

theorem mayEnd_of_isVoid (void : (s.hopFrom stand last).isVoid = true) :
    (s.hopFrom stand last).mayEnd last = (last.indexDepth == 0 || (s.hopFrom stand last).isExtensionMethod) := by
  cases shape : s.hopFrom stand last with
  | member found => simp [Hop.mayEnd, Hop.isExtensionMethod]
  | extensionMethod found => simp [Hop.mayEnd, Hop.isExtensionMethod]
  | nested | missing => rw [shape] at void; exact Bool.noConfusion void

theorem follow_of_isVoid (void : (s.hopFrom stand seg).isVoid = true) (rest : List Segment) :
    s.follow stand.type stand.mode stand.nonPublic (seg :: rest) =
      if rest = [] ∧ (seg.indexDepth = 0 ∨ (s.hopFrom stand seg).isExtensionMethod = true) then .void
      else .failed := by
  have isVoid : (s.hop stand.type seg stand.mode stand.nonPublic).isVoid = true := void
  have mayEnd : (s.hop stand.type seg stand.mode stand.nonPublic).mayEnd seg = _ := mayEnd_of_isVoid void
  rw [follow]
  simp only [isVoid, mayEnd, if_true, Bool.and_eq_true, Bool.or_eq_true, beq_iff_eq, List.isEmpty_iff]

theorem follow_of_step_eq_none (valued : (s.hopFrom stand seg).isVoid = false)
    (lost : s.step stand.type seg (s.hopFrom stand seg) = none) :
    s.follow stand.type stand.mode stand.nonPublic (seg :: rest) = .failed := by
  have hasValue : (s.hop stand.type seg stand.mode stand.nonPublic).isVoid = false := valued
  have lost : s.step stand.type seg (s.hop stand.type seg stand.mode stand.nonPublic) = none := lost
  simp [follow, hasValue, lost]

/-- No nested type is the type of no value: that one's name has no mark of nesting in it. -/
theorem isVoid_of_isNested {next : ResolvedType} {mode : BindingMode}
    (nested : (s.hopFrom stand seg).isNested = true)
    (reached : s.step stand.type seg (s.hopFrom stand seg) = some (next, mode)) : next.isVoid = false := by
  cases shape : s.hopFrom stand seg with
  | member | extensionMethod | missing => rw [shape] at nested; exact Bool.noConfusion nested
  | nested info =>
    obtain ⟨_, plain, found⟩ := hop_eq_nested shape
    rw [shape, step_nested plain] at reached
    obtain ⟨rfl, -⟩ := Prod.mk.inj (Option.some.inj reached)
    have named : info.fullName.toList = stand.type.fullName.toList ++ '+' :: seg.name.toList := by
      rw [fullName_of_findType? found]
      simp
    refine beq_false_of_ne fun same => ?_
    have marked : '+' ∈ voidType.toList := by
      rw [← same]
      simp [ResolvedType.fullName, named]
    exact absurd marked (by decide)

/-- The last segment ends a chain without a value exactly in the three ways. -/
theorem follow_last_eq_void_iff :
    s.follow stand.type stand.mode stand.nonPublic [last] = .void ↔ s.EndsVoid stand last := by
  by_cases void : (s.hopFrom stand last).isVoid = true
  · rw [follow_of_isVoid void]
    refine ⟨fun ends => ?_, fun ends => ?_⟩
    · cases shape : s.hopFrom stand last with
      | member found =>
        have bare : last.indexDepth = 0 := by simpa [shape, Hop.isExtensionMethod] using ends
        rw [shape] at void
        exact .member shape void bare
      | extensionMethod found =>
        rw [shape] at void
        exact .extensionMethod shape void
      | nested | missing => rw [shape] at void; exact Bool.noConfusion void
    · cases ends with
      | member means _ bare => simp [bare]
      | extensionMethod means _ => simp [means, Hop.isExtensionMethod]
      | ofType valued => exact absurd (valued.symm.trans void) Bool.false_ne_true
  · have valued : (s.hopFrom stand last).isVoid = false := by simpa using void
    refine ⟨fun ends => ?_, fun ends => ?_⟩
    · cases reached : s.step stand.type last (s.hopFrom stand last) with
      | none =>
        rw [follow_of_step_eq_none valued reached] at ends
        exact Walk.noConfusion ends
      | some landed =>
        obtain ⟨next, mode⟩ := landed
        rw [follow_cons valued reached, follow] at ends
        have isVoid : next.isVoid = true := by simpa [Walk.ofType] using ends
        cases nested : (s.hopFrom stand last).isNested with
        | true => exact absurd (isVoid.symm.trans (isVoid_of_isNested nested reached)) Bool.false_ne_true.symm
        | false => exact .ofType valued nested reached isVoid
    · cases ends with
      | member means isVoid | extensionMethod means isVoid =>
        rw [means] at valued
        exact absurd (valued.symm.trans isVoid) Bool.false_ne_true
      | ofType _ _ reached isVoid =>
        rw [follow_cons valued reached, follow, Walk.ofType, if_pos isVoid]

/-- A chain that is followed to no value stands before its last segment. -/
theorem exists_of_follow_eq_void (stand : Stand) (nonempty : segments ≠ [])
    (void : s.follow stand.type stand.mode stand.nonPublic segments = .void) :
    ∃ front last stand', segments = front ++ [last] ∧ s.behind? stand front = some stand' ∧
      s.EndsVoid stand' last := by
  induction segments generalizing stand with
  | nil => exact absurd rfl nonempty
  | cons seg rest ih =>
    cases rest with
    | nil => exact ⟨[], seg, stand, rfl, rfl, follow_last_eq_void_iff.mp void⟩
    | cons second rest =>
      cases valued : (s.hopFrom stand seg).isVoid with
      | true =>
        rw [follow_of_isVoid valued, if_neg (by simp)] at void
        exact Walk.noConfusion void
      | false =>
        cases reached : s.step stand.type seg (s.hopFrom stand seg) with
        | none =>
          rw [follow_of_step_eq_none valued reached] at void
          exact Walk.noConfusion void
        | some landed =>
          obtain ⟨next, mode⟩ := landed
          rw [follow_cons valued reached] at void
          obtain ⟨front, last, stand', shape, leads, ends⟩ :=
            ih ⟨next, mode, s.nonPublic⟩ (List.cons_ne_nil _ _) void
          have onward := (behind?_cons valued reached).trans leads
          exact ⟨seg :: front, last, stand', congrArg (seg :: ·) shape, onward, ends⟩

/-- The call of a declared method without a value has none, however it is indexed. -/
theorem localHead?_of_void_method {head : Segment} {m : Method} {t : ResolvedType}
    (means : s.entity? head = some (.method m)) (returns : s.resolve? m.returnType = some t) (void : t.isVoid = true) :
    s.localHead? head = some .void := by
  simp [localHead?, localHeadWith, means, entityType, Walk.ofType?, returns, Walk.ofType, void]

/-- Where a chain ends without a value. A chain with a value at its head ends so exactly when all segments
but the last are found, have a value and are of a known type, and the last one ends it in one of the three
ways. Behind a hop without a value, and at one that is indexed, it fails, unless that is an extension method
and the last hop. Behind every other hop it goes on with the type of the hop, whatever that type is. The
call of a declared method without a value has none, indexed or not. -/
theorem chain_without_value (s : Scope) {head : ResolvedType} (valued : head.isVoid = false)
    (segments : List Segment) (mode : BindingMode) (nonPublic : Bool) :
    (s.walk head segments mode nonPublic = .void ↔
        ∃ front last stand, segments = front ++ [last] ∧ s.behind? ⟨head, mode, nonPublic⟩ front = some stand ∧
          s.EndsVoid stand last) ∧
      (∀ front seg rest stand, segments = front ++ seg :: rest →
        s.behind? ⟨head, mode, nonPublic⟩ front = some stand →
          ((s.hopFrom stand seg).isVoid = true →
            s.walk head segments mode nonPublic =
              if rest = [] ∧ (seg.indexDepth = 0 ∨ (s.hopFrom stand seg).isExtensionMethod = true) then .void
              else .failed) ∧
          (∀ next later, (s.hopFrom stand seg).isVoid = false →
            s.step stand.type seg (s.hopFrom stand seg) = some (next, later) →
              s.walk head segments mode nonPublic = s.follow next later s.nonPublic rest)) ∧
      ∀ (call : Segment) (m : Method) (t : ResolvedType), s.entity? call = some (.method m) →
        s.resolve? m.returnType = some t → t.isVoid = true → s.localHead? call = some .void := by
  have follows : s.walk head segments mode nonPublic = s.follow head mode nonPublic segments := by
    rw [walk, valued]
    rfl
  refine ⟨⟨fun void => ?_, ?_⟩, ?_, fun call m t => localHead?_of_void_method⟩
  · rw [follows] at void
    refine exists_of_follow_eq_void ⟨head, mode, nonPublic⟩ ?_ void
    rintro rfl
    simp [follow, Walk.ofType, valued] at void
  · rintro ⟨front, last, stand, rfl, reached, ends⟩
    rw [follows, follow_append_of_behind? reached [last]]
    exact follow_last_eq_void_iff.mpr ends
  · rintro front seg rest stand rfl reached
    have onward := follows.trans (follow_append_of_behind? reached (seg :: rest))
    refine ⟨fun void => ?_, fun next later hasValue stepped => ?_⟩
    · rw [onward, follow_of_isVoid void]
    · rw [onward, follow_cons hasValue stepped]

/-- A type with a method without a value, and an extension method of it without one. -/
def pump : TypeInfo :=
  { namespaceName := some "Acme", name := "Pump", kind := .classType
    members := [
      { name := "Run", kind := .method },
      { name := "Next", kind := .property, typeName := "Acme.Pump" }] }

def pumpTools : TypeInfo :=
  { namespaceName := some "Acme", name := "PumpTools", kind := .classType, isExtensionContainer := true
    members := [
      { name := "Log", kind := .method, parameters := [⟨"pump", "Acme.Pump"⟩], isStatic := true
        isExtension := true }] }

def pumpAssembly : Assembly :=
  ⟨"Acme", [pump, pumpTools, { namespaceName := some "System", name := "Void", kind := .structType }]⟩

/-- The body of a method without a value. -/
def pumpCode : List Char := "using Acme; class Shed \x7b void Stop() \x7b ".toList

def pumpScope : Scope :=
  { catalog := ⟨{ workspace := ["Acme"] }, [.memory [pumpAssembly]]⟩
    context := Context.of pumpCode 39
    nonPublic := false }

def runCall : Segment := { name := "Run", argumentCount := some 0 }

def logCall : Segment := { name := "Log", argumentCount := some 0, indexDepth := 1 }

def stopCall : Segment := { name := "Stop", argumentCount := some 0, indexDepth := 1 }

theorem chain_without_value_pump :
    let pumped : ResolvedType := { info := pump }
    pumped.isVoid = false ∧
      pumpScope.walk pumped [{ name := "Next" }, runCall] .instanceMembers false = .void ∧
      pumpScope.walk pumped [{ name := "Next" }, runCall, { name := "Next" }] .instanceMembers false = .failed ∧
      pumpScope.walk pumped [{ name := "Next" }, { runCall with indexDepth := 1 }] .instanceMembers false = .failed ∧
      pumpScope.localHead? stopCall = some .void := by
  intro pumped
  have valued : pumped.isVoid = false := by decide
  have next : pumpScope.behind? ⟨pumped, .instanceMembers, false⟩ [{ name := "Next" }] =
      some ⟨pumped, .instanceMembers, false⟩ := by decide +kernel
  have runs : pumpScope.hopFrom ⟨pumped, .instanceMembers, false⟩ runCall =
      .member ⟨{ name := "Run", kind := .method }, pumped⟩ := by decide +kernel
  have stops : pumpScope.entity? stopCall = some (.method ⟨"Stop", "void", false, ⟨25, 39⟩, []⟩) := by
    decide +kernel
  have void : pumpScope.resolve? "void" =
      some { info := { namespaceName := some "System", name := "Void", kind := .structType } } := by decide +kernel
  refine ⟨valued, ?_, ?_, ?_, ?_⟩
  · exact (chain_without_value pumpScope valued _ _ _).1.mpr
      ⟨[{ name := "Next" }], runCall, _, rfl, next, .member runs (by decide) rfl⟩
  · have rule := (chain_without_value pumpScope valued _ _ _).2.1 [{ name := "Next" }] runCall
      [{ name := "Next" }] _ rfl next
    exact (rule.1 (by decide +kernel)).trans (if_neg (by simp))
  · have rule := (chain_without_value pumpScope valued _ _ _).2.1 [{ name := "Next" }] { runCall with indexDepth := 1 }
      [] _ rfl next
    exact (rule.1 (by decide +kernel)).trans (if_neg (by decide +kernel))
  · exact (chain_without_value pumpScope valued [] .instanceMembers false).2.2 stopCall _ _ stops void (by decide)

/-- An index after an extension method without a value, and after the call of a declared method without one,
is not seen: the chain ends without a value and does not fail. -/
theorem indexed_calls_without_value :
    pumpScope.walk { info := pump } [logCall] .instanceMembers false = .void ∧
      pumpScope.walk { info := pump } [{ runCall with indexDepth := 1 }] .instanceMembers false = .failed ∧
      pumpScope.localHead? stopCall = some .void := by
  decide +kernel

end Scope

end Typeahead.Lookup
