import Mathlib.Logic.Function.Iterate
import Typeahead.Proofs.Catalog.Inheritance

namespace Typeahead.Catalog

/-- What a type derives from where it is used: its base type, or the root of all types if it has none and is
neither an interface nor the root, and for an interface what it extends. -/
inductive DerivesFrom (t : ResolvedType) : TypeName → Prop
  | base {written : String} : t.info.baseType = some written → DerivesFrom t (t.substitute written)
  | root : t.info.baseType = none → t.info.kind ≠ .interfaceType → t.fullName ≠ objectType →
      DerivesFrom t ⟨objectType⟩
  | extended {written : String} : t.info.kind = .interfaceType → written ∈ t.info.interfaces →
      DerivesFrom t (t.substitute written)

/-- A parent that the catalog knows, with the arguments that it is written with. -/
def IsParent (c : Catalog) (child parent : ResolvedType) : Prop :=
  ∃ written info, DerivesFrom child written ∧ c.findType? written.canonicalBase = some info ∧
    parent = { info, arguments := written.arguments }

/-- The names met and the queue after one turn of the search. -/
def turn (c : Catalog) : List String × List ResolvedType → List String × List ResolvedType
  | (met, []) => (met, [])
  | (met, t :: queue) => (meet met (c.newParents met (parents t)), queue ++ c.newParents met (parents t))

variable {c : Catalog} {met : List String} {queue : List ResolvedType}

theorem parents_eq (t : ResolvedType) :
    parents t =
      (match t.info.baseType with
        | some written => [t.substitute written]
        | none => if t.info.kind = .interfaceType ∨ t.fullName = objectType then [] else [⟨objectType⟩]) ++
      if t.info.kind = .interfaceType then t.info.interfaces.map t.substitute else [] := by
  by_cases isInterface : t.info.kind = .interfaceType
  · cases base : t.info.baseType <;> simp [parents, base, isInterface]
  · cases base : t.info.baseType <;> simp [parents, base, isInterface]

theorem mem_parents_iff {t : ResolvedType} {written : TypeName} : written ∈ parents t ↔ DerivesFrom t written := by
  rw [parents_eq, List.mem_append]
  constructor
  · rintro (inBase | extended)
    · cases isBase : t.info.baseType with
      | none =>
        simp only [isBase, List.mem_ite_nil_left, not_or, List.mem_singleton] at inBase
        obtain ⟨⟨noInterface, noRoot⟩, rfl⟩ := inBase
        exact .root isBase noInterface noRoot
      | some name =>
        rw [isBase, List.mem_singleton] at inBase
        exact inBase ▸ .base isBase
    · obtain ⟨isInterface, listed⟩ := List.mem_ite_nil_right.mp extended
      obtain ⟨name, inside, rfl⟩ := List.mem_map.mp listed
      exact .extended isInterface inside
  · intro derives
    cases derives with
    | base isBase =>
      rw [isBase]
      exact .inl (List.mem_singleton_self _)
    | root noBase noInterface noRoot => exact .inl (by simp [noBase, noInterface, noRoot])
    | extended isInterface inside =>
      rw [if_pos isInterface]
      exact .inr (List.mem_map_of_mem inside)

/-- A reference that the catalog knows was met or is new. -/
theorem met_or_mem_newParents {written : List TypeName} {reference : TypeName} {info : TypeInfo}
    (inside : reference ∈ written) (found : c.findType? reference.canonicalBase = some info) :
    info.fullName ∈ met ∨ info.fullName ∈ (c.newParents met written).map (·.fullName) := by
  induction written generalizing met with
  | nil => simp at inside
  | cons first more ih =>
    unfold newParents
    rcases List.mem_cons.mp inside with rfl | later
    · rw [found]
      by_cases known : met.contains info.fullName = true
      · exact .inl (List.contains_iff_mem.mp known)
      · simp only [if_neg known, List.map_cons]
        exact .inr List.mem_cons_self
    · split
      · exact ih later
      · next other foundFirst =>
        split
        · exact ih later
        · rcases @ih (other.fullName :: met) later with before | new
          · rcases List.mem_cons.mp before with same | before
            · exact .inr (List.mem_cons.mpr (.inl same))
            · exact .inl before
          · exact .inr (List.mem_cons_of_mem _ new)

/-- What stands in the queue is found first and in its order. -/
theorem queue_prefix_ancestryFrom (c : Catalog) (met : List String) (queue : List ResolvedType) :
    queue <+: c.ancestryFrom met queue := by
  obtain ⟨found, whole, -, -⟩ := exists_ancestryFrom_eq_append (c := c) met queue
  exact ⟨found, whole.symm⟩

/-- Every parent of a type that is found was met before the search or is found as well. -/
theorem ancestryFrom_closed {child parent : ResolvedType} (inside : child ∈ c.ancestryFrom met queue)
    (isParent : IsParent c child parent) :
    parent.fullName ∈ met ∨ parent.fullName ∈ (c.ancestryFrom met queue).map (·.fullName) := by
  fun_induction ancestryFrom c met queue with
  | case1 => simp at inside
  | case2 met t queue new ih =>
    have newIsFound {name : String} (listed : name ∈ new.map (·.fullName)) :
        name ∈ (t :: c.ancestryFrom (meet met new) (queue ++ new)).map (·.fullName) := by
      refine List.mem_cons_of_mem _ ((List.map_subset _ ?_) listed)
      exact fun u member => (c.queue_prefix_ancestryFrom (meet met new) (queue ++ new)).subset
        (List.mem_append_right _ member)
    rcases List.mem_cons.mp inside with rfl | later
    · obtain ⟨written, info, derives, found, rfl⟩ := isParent
      exact (met_or_mem_newParents (mem_parents_iff.mpr derives) found).imp_right newIsFound
    · rcases ih later with before | found
      · exact (mem_meet.mp before).imp_right newIsFound
      · exact .inr (List.mem_cons_of_mem _ found)

/-- Behind the queue every type that is found is a parent of one found before. -/
theorem exists_child_of_ancestryFrom {after : List ResolvedType} {u : ResolvedType} (before : List ResolvedType)
    (split : c.ancestryFrom met queue = before ++ u :: after) :
    before.length < queue.length ∨ ∃ child ∈ before, IsParent c child u := by
  fun_induction ancestryFrom c met queue generalizing before with
  | case1 => simp at split
  | case2 met t queue new ih =>
    cases before with
    | nil => exact .inl (Nat.succ_pos _)
    | cons first before =>
      rw [List.cons_append] at split
      obtain ⟨rfl, rest⟩ := List.cons.inj split
      rcases ih before rest with within | ⟨child, earlier, isParent⟩
      · by_cases queued : before.length < queue.length
        · exact .inl (Nat.succ_lt_succ queued)
        · obtain ⟨later, whole⟩ := c.queue_prefix_ancestryFrom (meet met new) (queue ++ new)
          have here : (c.ancestryFrom (meet met new) (queue ++ new))[before.length]? = some u := by
            rw [rest, List.getElem?_append_right le_rfl]
            simp
          rw [← whole, List.getElem?_append_left within, List.getElem?_append_right (not_lt.mp queued)] at here
          obtain ⟨written, listed, info, found, means⟩ := exists_of_mem_newParents (List.mem_of_getElem? here)
          exact .inr ⟨t, List.mem_cons_self, written, info, mem_parents_iff.mp listed, found, means⟩
      · exact .inr ⟨child, List.mem_cons_of_mem _ earlier, isParent⟩

theorem length_ancestryFrom_le (c : Catalog) (met : List String) (queue : List ResolvedType) :
    (c.ancestryFrom met queue).length ≤ (unmet c.typeNames met).length + queue.length := by
  fun_induction ancestryFrom c met queue with
  | case1 => simp
  | case2 met t queue new ih =>
    have fewer : (unmet c.typeNames (meet met new)).length + new.length ≤ (unmet c.typeNames met).length :=
      c.length_unmet_meet_newParents met (parents t)
    simp only [List.length_append, List.length_cons] at ih ⊢
    omega

/-- The queue is empty after as many turns as there are types to be found. -/
theorem queue_iterate_turn_eq_nil_iff (turns : Nat) :
    (c.turn^[turns] (met, queue)).2 = [] ↔ (c.ancestryFrom met queue).length ≤ turns := by
  fun_induction ancestryFrom c met queue generalizing turns with
  | case1 met => simp [Function.iterate_fixed (f := c.turn) (x := (met, [])) rfl]
  | case2 met t queue new ih =>
    cases turns with
    | zero => simp
    | succ turns =>
      rw [Function.iterate_succ_apply, List.length_cons, Nat.succ_le_succ_iff, ← ih turns]
      rfl

/-- The ancestry of a type is closed. On any catalog the search for it ends, after as many turns as it finds
types, at most one more than the loader has names. It starts with the type, meets every full name once, has for
each of its types the names of all parents that the catalog knows, and holds nothing else: every later type is a
parent of one that stands before it. -/
theorem ancestry_closure (c : Catalog) (t : ResolvedType) :
    ((∀ turns, (c.turn^[turns] ([t.fullName], [t])).2 = [] ↔ (c.ancestry t).length ≤ turns) ∧
        (c.ancestry t).length ≤ c.typeNames.length + 1) ∧
      (c.ancestry t).head? = some t ∧
      ((c.ancestry t).map (·.fullName)).Nodup ∧
      (∀ child ∈ c.ancestry t, ∀ parent, IsParent c child parent →
        parent.fullName ∈ (c.ancestry t).map (·.fullName)) ∧
      ∀ before u after, c.ancestry t = t :: before ++ u :: after → ∃ child ∈ t :: before, IsParent c child u := by
  have first : t ∈ c.ancestry t := (c.queue_prefix_ancestryFrom [t.fullName] [t]).subset List.mem_cons_self
  refine ⟨⟨queue_iterate_turn_eq_nil_iff, ?_⟩, ?_, nodup_ancestry t, ?_, ?_⟩
  · have bounded := c.length_ancestryFrom_le [t.fullName] [t]
    have known : (unmet c.typeNames [t.fullName]).length ≤ c.typeNames.length := List.length_filter_le ..
    rw [List.length_singleton] at bounded
    exact bounded.trans (Nat.add_le_add_right known 1)
  · obtain ⟨later, whole⟩ := c.queue_prefix_ancestryFrom [t.fullName] [t]
    rw [ancestry, ← whole]
    rfl
  · intro child inside parent isParent
    rcases ancestryFrom_closed inside isParent with same | found
    · exact List.mem_map.mpr ⟨t, first, (List.mem_singleton.mp same).symm⟩
    · exact found
  · intro before u after split
    rcases exists_child_of_ancestryFrom (t :: before) split with queued | derived
    · simp at queued
    · exact derived

/-- Three interfaces that extend each other in a circle, one of them reached in two ways, and an interface that is
not known. -/
def knot : TypeInfo :=
  { name := "Knot", kind := .interfaceType, genericParameters := ["T"], interfaces := ["Left<T>", "Right<T[]>"] }

def leftKnot : TypeInfo :=
  { name := "Left", kind := .interfaceType, genericParameters := ["T"], interfaces := ["Right<T>", "Missing"] }

def rightKnot : TypeInfo :=
  { name := "Right", kind := .interfaceType, genericParameters := ["T"], interfaces := ["Knot<T?>", "Right<T>"] }

def knotCatalog : Catalog := catalogOf [knot, leftKnot, rightKnot]

theorem ancestry_closure_knot :
    let use : ResolvedType := { info := knot, arguments := [⟨"int"⟩] }
    knotCatalog.ancestry use =
        [use, { info := leftKnot, arguments := [⟨"int"⟩] }, { info := rightKnot, arguments := [⟨"int[]"⟩] }] ∧
      (∀ turns, (knotCatalog.turn^[turns] (["Knot"], [use])).2 = [] ↔ 3 ≤ turns) ∧
      "Knot" ∈ (knotCatalog.ancestry use).map (·.fullName) := by
  intro use
  have whole : knotCatalog.ancestry use =
      [use, { info := leftKnot, arguments := [⟨"int"⟩] }, { info := rightKnot, arguments := [⟨"int[]"⟩] }] := by
    decide +kernel
  obtain ⟨⟨ends, -⟩, -, -, closed, -⟩ := ancestry_closure knotCatalog use
  rw [whole] at ends
  have extended : "Knot<T?>" ∈ rightKnot.interfaces := by decide
  have isParent : IsParent knotCatalog { info := rightKnot, arguments := [⟨"int[]"⟩] }
      { info := knot, arguments := [⟨"int[]?"⟩] } :=
    ⟨_, knot, .extended rfl extended, by decide +kernel, by decide +kernel⟩
  exact ⟨whole, ends, closed _ (by simp [whole]) _ isParent⟩

end Typeahead.Catalog
