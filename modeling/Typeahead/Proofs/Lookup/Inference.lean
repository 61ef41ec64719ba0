import Mathlib.Data.Set.Basic
import Typeahead.Lookup.Head

namespace Typeahead.Lookup

open Source

namespace Scope

/-- The type after the indexers of a head. -/
def indexWalk (s : Scope) (indexDepth : Nat) : Walk → Walk
  | .type t =>
    match s.applyIndex? indexDepth t with
    | some t => .type t
    | none => .failed
  | other => other

/-- The type of an expression whose head, as a declared entity, has been looked up. -/
def continueFrom (s : Scope) (head : Segment) (rest : List Segment) : Option Walk → Walk
  | some (.type t) => s.walk t rest .instanceMembers true
  | some other => if rest.isEmpty then other else .failed
  | none =>
    match s.staticHead? (head :: rest) with
    | some (t, used) => s.walk t ((head :: rest).drop used) .typeStatics s.nonPublic
    | none => .failed

mutual

/-- The type of a variable and the counter after the call. The counter is raised while the initializer is read. -/
def variableTypeFrom (s : Scope) (count : Nat) (v : Variable) : Walk × Nat :=
  if v.typeName ≠ "var" then (.ofType? (s.resolve? v.typeName), count)
  else if inferenceDepth ≤ count then (.failed, count)
  else
    let result :=
      match v.initializer with
      | some (.expression e) => (s.expressionTypeFrom (count + 1) e).1
      | some (.elementOf e) => s.elementWalk (s.expressionTypeFrom (count + 1) e).1
      | none => .failed
    (result, count)
termination_by (inferenceDepth - count, 0)

/-- The head of a chain as a declared entity, with its indexers applied, and the counter after the call. -/
def localHeadFrom (s : Scope) (count : Nat) (head : Segment) : Option Walk × Nat :=
  match s.entity? head with
  | none => (none, count)
  | some (.variable v) =>
    let (walk, count) := s.variableTypeFrom count v
    (some (s.indexWalk head.indexDepth walk), count)
  | some other => (some (s.indexWalk head.indexDepth (s.entityType (fun _ => .failed) other)), count)
termination_by (inferenceDepth - count, 1)

/-- The type of an expression and the counter after the call. -/
def expressionTypeFrom (s : Scope) (count : Nat) (expression : String) : Walk × Nat :=
  match segmentsOf expression.toList with
  | [] => (.failed, count)
  | head :: rest =>
    let (found, count) := s.localHeadFrom count head
    (s.continueFrom head rest found, count)
termination_by (inferenceDepth - count, 2)

end

variable {s : Scope} {count : Nat} {variableType : Variable → Walk}

theorem localHeadWith_eq (head : Segment) :
    s.localHeadWith variableType head =
      (s.entity? head).map fun entity => s.indexWalk head.indexDepth (s.entityType variableType entity) := by
  unfold localHeadWith
  congr 1

theorem expressionTypeWith_cons {expression : String} {head : Segment} {rest : List Segment}
    (reads : segmentsOf expression.toList = head :: rest) :
    s.expressionTypeWith variableType expression = s.continueFrom head rest (s.localHeadWith variableType head) := by
  rw [expressionTypeWith, reads]
  cases found : s.localHeadWith variableType head with
  | none =>
    simp only [found]
    rfl
  | some walk => cases walk <;> simp only [found, continueFrom]

theorem localHeadFrom_eq (same : ∀ v, s.variableTypeFrom count v = (variableType v, count)) (head : Segment) :
    s.localHeadFrom count head = (s.localHeadWith variableType head, count) := by
  rw [localHeadFrom, localHeadWith_eq]
  cases s.entity? head with
  | none => rfl
  | some entity =>
    cases entity with
    | «variable» v =>
      simp only [same]
      rfl
    | method m => rfl
    | property p => rfl
    | inherited w => rfl

theorem expressionTypeFrom_eq (same : ∀ v, s.variableTypeFrom count v = (variableType v, count)) (expression : String) :
    s.expressionTypeFrom count expression = (s.expressionTypeWith variableType expression, count) := by
  rw [expressionTypeFrom]
  cases reads : segmentsOf expression.toList with
  | nil => rw [expressionTypeWith, reads]
  | cons head rest =>
    rw [expressionTypeWith_cons reads]
    simp only [localHeadFrom_eq same]

/-- The counter stands in for the depth that is left. -/
theorem variableTypeFrom_eq (s : Scope) (count : Nat) (v : Variable) :
    s.variableTypeFrom count v = (s.variableTypeWithin (inferenceDepth - count) v, count) := by
  induction left : inferenceDepth - count generalizing count v with
  | zero =>
    rw [variableTypeFrom, variableTypeWithin]
    by_cases written : v.typeName ≠ "var"
    · rw [if_pos written, if_pos written]
    · rw [if_neg written, if_neg written, if_pos (by omega)]
  | succ depth ih =>
    have deeper : inferenceDepth - (count + 1) = depth := by omega
    have expression (e : String) := expressionTypeFrom_eq (fun v => ih (count + 1) v deeper) e
    rw [variableTypeFrom, variableTypeWithin]
    by_cases written : v.typeName ≠ "var"
    · rw [if_pos written, if_pos written]
    · rw [if_neg written, if_neg written, if_neg (by omega)]
      cases v.initializer with
      | none => rfl
      | some initializer => cases initializer <;> simp only [expression]

/-- The initializer of a variable, an expression or the source of a loop, begins with a name that means a variable
of a set: the name may be indexed, but it is not called. -/
structure RefersInto (s : Scope) (vars : Set Variable) (v : Variable) : Prop where
  implicit : v.typeName = "var"
  initialized : ∃ e head rest w, (v.initializer = some (.expression e) ∨ v.initializer = some (.elementOf e)) ∧
    segmentsOf e.toList = head :: rest ∧ head.argumentCount = none ∧
    s.context.declarations.findVariable? head.name s.context.caret s.context.declContext = some w ∧ w ∈ vars

/-- A name that means a variable without a type is a head without a type, indexed or not. -/
theorem localHeadWith_failed {head : Segment} {w : Variable} (plain : head.argumentCount = none)
    (means : s.context.declarations.findVariable? head.name s.context.caret s.context.declContext = some w)
    (failed : variableType w = .failed) : s.localHeadWith variableType head = some .failed := by
  have entity : s.entity? head = some (.variable w) := by simp [entity?, plain, means]
  rw [localHeadWith_eq, entity, Option.map_some, entityType, failed]
  rfl

/-- Nothing is found behind such a head. -/
theorem expressionTypeWith_failed {expression : String} {head : Segment} {rest : List Segment}
    (reads : segmentsOf expression.toList = head :: rest)
    (failed : s.localHeadWith variableType head = some .failed) :
    s.expressionTypeWith variableType expression = .failed := by
  rw [expressionTypeWith_cons reads, failed]
  exact ite_self _

/-- Round a circle the depth runs out, wherever in the circle and however deep the inference starts. -/
theorem variableTypeWithin_circular {vars : Set Variable} (circular : ∀ v ∈ vars, s.RefersInto vars v) (depth : Nat) :
    ∀ v ∈ vars, s.variableTypeWithin depth v = .failed := by
  induction depth with
  | zero =>
    intro v member
    rw [variableTypeWithin, if_neg (by simp [(circular v member).implicit])]
  | succ depth ih =>
    intro v member
    obtain ⟨implicit, e, head, rest, w, initializer, reads, plain, means, inSet⟩ := circular v member
    have failed : s.expressionTypeWith (fun v => s.variableTypeWithin depth v) e = .failed :=
      expressionTypeWith_failed reads (localHeadWith_failed plain means (ih w inSet))
    rw [variableTypeWithin, if_neg (by simp [implicit])]
    rcases initializer with value | source
    · simp only [value, failed]
    · simp only [source, failed, elementWalk]

/-- Inference with the shared counter, from any count: every call ends with the counter as it was, and answers what
the inference of the rest of the depth answers. And for any set of `var` variables whose initializers all lead back
into the set, at the end of one circle or of several, no member gets a type, nor does an expression that begins with
one. -/
theorem inference_circular (s : Scope) :
    (∀ count,
      (∀ v, s.variableTypeFrom count v = (s.variableTypeWithin (inferenceDepth - count) v, count)) ∧
      (∀ e, s.expressionTypeFrom count e =
        (s.expressionTypeWith (s.variableTypeWithin (inferenceDepth - count)) e, count)) ∧
      ∀ head, s.localHeadFrom count head =
        (s.localHeadWith (s.variableTypeWithin (inferenceDepth - count)) head, count)) ∧
    (∀ v, s.variableType v = (s.variableTypeFrom 0 v).1) ∧
    ∀ vars : Set Variable, (∀ v ∈ vars, s.RefersInto vars v) →
      ∀ v ∈ vars, s.variableType v = .failed ∧ ∀ count, s.variableTypeFrom count v = (.failed, count) := by
  have counted (count : Nat) (v : Variable) := variableTypeFrom_eq s count v
  refine ⟨fun count => ⟨counted count, ?_, ?_⟩, fun v => by rw [counted]; rfl, fun vars circular v member => ⟨?_, ?_⟩⟩
  · exact expressionTypeFrom_eq (counted count)
  · exact localHeadFrom_eq (counted count)
  · exact variableTypeWithin_circular circular inferenceDepth v member
  · intro count
    rw [counted, variableTypeWithin_circular circular _ v member]

/-- The initializer of `a` indexes `b`, and `b` runs over a member of `a`. -/
def circleCode : List Char := "class A\x7bvoid M()\x7bvar a=b[0].X;foreach(var b in a.Items)\x7bb".toList

def circleScope : Scope :=
  { catalog := ⟨{}, []⟩, context := Context.of circleCode 57, nonPublic := false }

def circleA : Variable := ⟨"a", "var", ⟨21, 57⟩, false, .localVariable, some (.expression "b[0].X")⟩

def circleB : Variable := ⟨"b", "var", ⟨42, 57⟩, false, .localVariable, some (.elementOf "a.Items")⟩

theorem inference_circular_pair :
    circleScope.context.declarations.visibleVariables circleScope.context.declContext circleScope.context.caret =
        [circleA, circleB] ∧
      circleScope.variableType circleA = .failed ∧ circleScope.variableType circleB = .failed ∧
      circleScope.expressionTypeFrom 1 "b[0].X" = (circleScope.expressionTypeWith
        (circleScope.variableTypeWithin 3) "b[0].X", 1) := by
  have visible : circleScope.context.declarations.visibleVariables circleScope.context.declContext
      circleScope.context.caret = [circleA, circleB] := by decide +kernel
  have means (name : String) : circleScope.context.declarations.findVariable? name circleScope.context.caret
      circleScope.context.declContext = [circleA, circleB].find? (·.name == name) := by
    rw [Declarations.findVariable?, visible]
  have readsA : segmentsOf "b[0].X".toList = [{ name := "b", indexDepth := 1 }, { name := "X" }] := by decide +kernel
  have readsB : segmentsOf "a.Items".toList = [{ name := "a" }, { name := "Items" }] := by decide +kernel
  have circular : ∀ v ∈ ({circleA, circleB} : Set Variable), circleScope.RefersInto {circleA, circleB} v := by
    rintro v (rfl | rfl)
    · exact ⟨rfl, _, _, _, circleB, .inl rfl, readsA, rfl, (means "b").trans rfl, .inr rfl⟩
    · exact ⟨rfl, _, _, _, circleA, .inr rfl, readsB, rfl, (means "a").trans rfl, .inl rfl⟩
  obtain ⟨counted, -, failed⟩ := inference_circular circleScope
  obtain ⟨-, expression, -⟩ := counted 1
  have first := failed _ circular circleA (.inl rfl)
  have second := failed _ circular circleB (.inr rfl)
  exact ⟨visible, first.1, second.1, expression "b[0].X"⟩

end Scope

end Typeahead.Lookup
