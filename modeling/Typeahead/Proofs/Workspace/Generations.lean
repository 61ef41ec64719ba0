import Typeahead.Workspace.Store

namespace Typeahead.Workspace

/-- What clients do with documents. -/
inductive Operation where
  | opening (a : Address) (languageId : String) (version : Nat) (text : String)
  | update (a : Address) (version : Nat) (text : String)
  | close (a : Address)
  | request (a : Address)
  deriving DecidableEq, Repr

namespace Operation

def apply (s : Store) : Operation → Store
  | .opening a languageId version text => s.put a { languageId, version, text }
  | .update a version text => s.update a version text
  | .close a => s.close a
  | .request a => (s.beginRequest a).2

def address : Operation → Address
  | .opening a _ _ _ | .update a _ _ | .close a | .request a => a

/-- The operation begins or ends the time for which a document is open. -/
def isBoundary : Operation → Bool
  | .opening .. | .close _ => true
  | .update .. | .request _ => false

/-- The operation begins or ends the time for which the document under the address is open. -/
def bounds (a : Address) (op : Operation) : Bool := op.address == a && op.isBoundary

/-- The operation is an edit of the document or a request for it. -/
def advances (a : Address) (op : Operation) : Bool := op.address == a && !op.isBoundary

/-- The operation replaces the text of the document, or is a newer request for it. -/
def supersedes (a : Address) : Operation → Bool
  | .close _ => false
  | op => op.address == a

end Operation

namespace Store

def run (s : Store) (ops : List Operation) : Store := ops.foldl Operation.apply s

theorem run_append (s : Store) (earlier later : List Operation) :
    s.run (earlier ++ later) = (s.run earlier).run later := List.foldl_append

def generation? (s : Store) (a : Address) : Option Nat := (s.find? a).map (·.generation)

theorem isCurrent_iff {s : Store} {a : Address} {generation : Nat} :
    s.isCurrent a generation = true ↔ s.generation? a = some generation := by
  simp [isCurrent, generation?, Option.any_eq_true]

theorem find?_update_of_ne {s : Store} {a other : Address} (version : Nat) (text : String) (h : other ≠ a) :
    (s.update a version text).find? other = s.find? other := by
  unfold update
  split
  · exact find?_put_of_ne _ h
  · rfl

theorem find?_beginRequest_of_ne {s : Store} {a other : Address} (h : other ≠ a) :
    (s.beginRequest a).2.find? other = s.find? other := by
  unfold beginRequest
  split
  · exact find?_put_of_ne _ h
  · rfl

/-- An operation on one document leaves the others alone. -/
theorem generation?_apply_of_ne {s : Store} {a : Address} {op : Operation} (h : a ≠ op.address) :
    (op.apply s).generation? a = s.generation? a := by
  have same : (op.apply s).find? a = s.find? a := by
    cases op with
    | opening => exact find?_put_of_ne _ h
    | update => exact find?_update_of_ne _ _ h
    | close => exact find?_close_of_ne h
    | request => exact find?_beginRequest_of_ne h
  rw [generation?, same, generation?]

theorem generation?_opening (s : Store) (a : Address) (languageId : String) (version : Nat) (text : String) :
    ((Operation.opening a languageId version text).apply s).generation? a = some 0 := by
  simp [Operation.apply, generation?]

theorem generation?_close (s : Store) (a : Address) : ((Operation.close a).apply s).generation? a = none := by
  simp [Operation.apply, generation?]

theorem generation?_of_advances {s : Store} {a : Address} {op : Operation} (advances : op.advances a = true) :
    (op.apply s).generation? a = (s.generation? a).map (· + 1) := by
  simp only [Operation.advances, Bool.and_eq_true, beq_iff_eq, Bool.not_eq_true'] at advances
  obtain ⟨rfl, inner⟩ := advances
  cases op with
  | opening | close => simp [Operation.isBoundary] at inner
  | update a version text =>
    cases found : s.find? a <;>
      simp [Operation.apply, Operation.address, generation?, update, found, Document.edit]
  | request a =>
    cases found : s.find? a <;>
      simp [Operation.apply, Operation.address, generation?, beginRequest, found, Document.request]

/-- While the document is neither opened nor closed its generation counts its edits and requests. -/
theorem generation?_run {s : Store} {a : Address} {ops : List Operation}
    (unbroken : ∀ op ∈ ops, op.bounds a = false) :
    (s.run ops).generation? a = (s.generation? a).map (· + ops.countP (Operation.advances a)) := by
  induction ops generalizing s with
  | nil => simp [run]
  | cons op ops ih =>
    have step : s.run (op :: ops) = (op.apply s).run ops := rfl
    have here := unbroken op (List.mem_cons_self ..)
    rw [step, ih fun later inside => unbroken later (List.mem_cons_of_mem _ inside)]
    by_cases about : op.address = a
    · have inner : op.isBoundary = false := by simpa [Operation.bounds, about] using here
      have advances : op.advances a = true := by simp [Operation.advances, about, inner]
      rw [generation?_of_advances advances, List.countP_cons_of_pos advances, Option.map_map]
      congr 1
      funext generation
      simp only [Function.comp_apply]
      omega
    · have idle : ¬ op.advances a = true := by simp [Operation.advances, about]
      rw [generation?_apply_of_ne (Ne.symm about), List.countP_cons_of_neg idle]

end Store

/-- The document was opened again, and since the last opening it has stayed open and had `count` edits and
requests. -/
def Reopened (a : Address) (count : Nat) (ops : List Operation) : Prop :=
  ∃ earlier languageId version text later,
    ops = earlier ++ .opening a languageId version text :: later ∧
      (∀ op ∈ later, op.bounds a = false) ∧ later.countP (Operation.advances a) = count

/-- A run in which a document is opened or closed has a last such operation. -/
theorem exists_last_bounds {a : Address} {ops : List Operation} (broken : ¬ ∀ op ∈ ops, op.bounds a = false) :
    ∃ earlier op later, ops = earlier ++ op :: later ∧ op.bounds a = true ∧
      ∀ op ∈ later, op.bounds a = false := by
  induction ops with
  | nil => simp at broken
  | cons first ops ih =>
    by_cases unbroken : ∀ op ∈ ops, op.bounds a = false
    · refine ⟨[], first, ops, rfl, ?_, unbroken⟩
      cases bounds : first.bounds a with
      | true => rfl
      | false =>
        refine absurd ?_ broken
        intro op inside
        rcases List.mem_cons.mp inside with rfl | later
        · exact bounds
        · exact unbroken op later
    · obtain ⟨earlier, op, later, rfl, bounds, rest⟩ := ih unbroken
      exact ⟨first :: earlier, op, later, rfl, bounds, rest⟩

namespace Store

theorem generation?_of_reopened {s : Store} {a : Address} {count : Nat} {ops : List Operation}
    (reopened : Reopened a count ops) : (s.run ops).generation? a = some count := by
  obtain ⟨earlier, languageId, version, text, later, rfl, unbroken, count⟩ := reopened
  have step : (s.run earlier).run (.opening a languageId version text :: later) =
      ((Operation.opening a languageId version text).apply (s.run earlier)).run later := rfl
  rw [run_append, step, generation?_run unbroken, generation?_opening, count]
  simp

theorem reopened_of_generation? {s : Store} {a : Address} {generation : Nat} {ops : List Operation}
    (before : s.generation? a = some generation) (superseded : ∃ op ∈ ops, op.supersedes a = true)
    (current : (s.run ops).generation? a = some generation) : Reopened a generation ops := by
  by_cases unbroken : ∀ op ∈ ops, op.bounds a = false
  · obtain ⟨op, inside, supersedes⟩ := superseded
    have inner := unbroken op inside
    have advances : op.advances a = true := by
      cases op <;>
        simp_all [Operation.advances, Operation.bounds, Operation.supersedes, Operation.isBoundary]
    have counted : 0 < ops.countP (Operation.advances a) := List.countP_pos_iff.mpr ⟨op, inside, advances⟩
    rw [generation?_run unbroken, before, Option.map_some, Option.some.injEq] at current
    omega
  · obtain ⟨earlier, op, later, rfl, bounds, rest⟩ := exists_last_bounds unbroken
    have step : (s.run earlier).run (op :: later) = (op.apply (s.run earlier)).run later := rfl
    rw [run_append, step, generation?_run rest] at current
    simp only [Operation.bounds, Bool.and_eq_true, beq_iff_eq] at bounds
    obtain ⟨rfl, boundary⟩ := bounds
    cases op with
    | update | request => simp [Operation.isBoundary] at boundary
    | close a =>
      rw [Operation.address, generation?_close] at current
      simp at current
    | opening a languageId version text =>
      rw [Operation.address, generation?_opening, Option.map_some, Option.some.injEq, Nat.zero_add] at current
      exact ⟨earlier, languageId, version, text, later, rfl, rest, current⟩

/-- An earlier generation is current again exactly when the document was opened again and has come as
far since. -/
theorem isCurrent_run_iff_reopened {s : Store} {a : Address} {generation : Nat} {ops : List Operation}
    (before : s.generation? a = some generation) (superseded : ∃ op ∈ ops, op.supersedes a = true) :
    (s.run ops).isCurrent a generation = true ↔ Reopened a generation ops := by
  rw [isCurrent_iff]
  exact ⟨reopened_of_generation? before superseded, generation?_of_reopened⟩

/-- A request leaves its own generation current. -/
theorem generation?_of_beginRequest {s after : Store} {a : Address} {d : Document}
    (begun : s.beginRequest a = (some d, after)) : after.generation? a = some d.generation := by
  unfold beginRequest at begun
  split at begun
  · simp only [Prod.mk.injEq, Option.some.injEq] at begun
    obtain ⟨rfl, rfl⟩ := begun
    simp [generation?]
  · simp at begun

end Store

end Typeahead.Workspace
