import Mathlib.Data.List.Nodup
import Mathlib.Logic.Relation
import Typeahead.Catalog.Namespaces
import Typeahead.Proofs.Text.Place

namespace Typeahead.Catalog

open Text

/-- The name goes on behind the outer one and a dot. -/
def IsInside (outer name : String) : Prop := ∃ inner, name = outer ++ "." ++ inner

def IsWithin (outer name : String) : Prop := name = outer ∨ IsInside outer name

/-- Between its dots the name has no empty part. -/
def HasFullParts (name : String) : Prop := ∀ part ∈ fields (· == '.') name.toList, part ≠ []

instance (name : String) : Decidable (HasFullParts name) :=
  inferInstanceAs (Decidable (∀ part ∈ fields (· == '.') name.toList, part ≠ []))

/-- A namespace of the references, or one in which a workspace assembly declares a type. -/
def IsDeclared (c : Catalog) (name : String) : Prop :=
  (∃ b ∈ c.references.bindings, b.namespaceName = name) ∨
    ∃ assembly ∈ c.references.workspace, ∃ a, c.assembly? assembly = some a ∧
      ∃ t ∈ a.types, t.namespaceName = some name

/-- One step down the tree. -/
def IsChild (c : Catalog) (parent child : String) : Prop :=
  ∃ part ∈ c.childNamespaces parent, child = parent ++ "." ++ part

/-- Whatever lies around a name stands before it. -/
def OutermostFirst (names : List String) : Prop :=
  ∀ earlier name later, names = earlier ++ name :: later → ∀ outer, outer ≠ "" → IsInside outer name → outer ∈ earlier

variable {c : Catalog} {outer inner name parent part : String}

theorem toList_inside : (outer ++ "." ++ inner).toList = outer.toList ++ '.' :: inner.toList := by
  simp [String.toList_append]

theorem isInside_iff : IsInside outer name ↔ ∃ rest, name.toList = outer.toList ++ '.' :: rest := by
  constructor
  · rintro ⟨inner, rfl⟩
    exact ⟨inner.toList, toList_inside⟩
  · rintro ⟨rest, same⟩
    exact ⟨String.ofList rest, String.toList_inj.mp (by rw [toList_inside, String.toList_ofList, same])⟩

theorem isWithin_iff :
    IsWithin outer name ↔ ∃ rest, name.toList = outer.toList ++ rest ∧ (rest = [] ∨ rest.head? = some '.') := by
  rw [IsWithin, isInside_iff]
  constructor
  · rintro (rfl | ⟨rest, same⟩)
    · exact ⟨[], by simp, .inl rfl⟩
    · exact ⟨_, same, .inr rfl⟩
  · rintro ⟨rest, same, rfl | dot⟩
    · exact .inl (String.toList_inj.mp (by simpa using same))
    · obtain ⟨more, rfl⟩ := List.head?_eq_some_iff.mp dot
      exact .inr ⟨more, same⟩

theorem IsWithin.trans {middle : String} (around : IsWithin outer middle) (within : IsWithin middle name) :
    IsWithin outer name := by
  rcases within with rfl | ⟨later, rfl⟩
  · exact around
  · rcases around with rfl | ⟨inner, rfl⟩
    · exact .inr ⟨later, rfl⟩
    · exact .inr ⟨inner ++ "." ++ later, by simp only [String.append_assoc]⟩

theorem IsInside.length_lt (inside : IsInside outer name) : outer.toList.length < name.toList.length := by
  obtain ⟨rest, same⟩ := isInside_iff.mp inside
  rw [same, List.length_append, List.length_cons]
  omega

/-- A name with full parts begins with one of them. -/
theorem HasFullParts.ne_empty (full : HasFullParts name) (around : IsWithin outer name) : outer ≠ "" := by
  rintro rfl
  obtain ⟨rest, same, ends⟩ := isWithin_iff.mp around
  rw [String.toList_empty, List.nil_append] at same
  subst same
  have empty : [] ∈ fields (· == '.') name.toList := by
    rcases ends with none | dot
    · simp [none, fields]
    · obtain ⟨more, begins⟩ := List.head?_eq_some_iff.mp dot
      simp [begins, fields]
  exact full [] empty rfl

theorem mem_leadingParts : outer ∈ (dottedPrefixes name.toList).map String.ofList ↔ IsWithin outer name := by
  rw [isWithin_iff, List.mem_map]
  constructor
  · rintro ⟨start, inside, rfl⟩
    rw [String.toList_ofList]
    exact mem_dottedPrefixes.mp inside
  · intro around
    exact ⟨outer.toList, mem_dottedPrefixes.mpr around, String.ofList_toList⟩

theorem mem_declaredNamespaces : name ∈ c.declaredNamespaces ↔ IsDeclared c name := by
  simp only [declaredNamespaces, References.namespaces, IsDeclared, List.mem_append, List.mem_map, List.mem_flatMap,
    List.mem_filterMap]
  refine or_congr_right ?_
  constructor
  · rintro ⟨a, ⟨assembly, listed, loaded⟩, t, inside, named⟩
    exact ⟨assembly, listed, a, loaded, t, inside, named⟩
  · rintro ⟨assembly, listed, a, loaded, t, inside, named⟩
    exact ⟨a, ⟨assembly, listed, loaded⟩, t, inside, named⟩

theorem mem_namespaces :
    name ∈ c.namespaces ↔ name ≠ "" ∧ ∃ declared, IsDeclared c declared ∧ IsWithin name declared := by
  simp only [namespaces, mem_keepFirst, List.mem_filter, List.mem_flatMap, mem_leadingParts, mem_declaredNamespaces,
    decide_eq_true_eq]
  exact and_comm

/-- What lies around a namespace is one. -/
theorem mem_namespaces_of_isWithin (nonempty : outer ≠ "") (around : IsWithin outer name)
    (listed : name ∈ c.namespaces) : outer ∈ c.namespaces := by
  obtain ⟨-, declared, isDeclared, within⟩ := mem_namespaces.mp listed
  exact mem_namespaces.mpr ⟨nonempty, declared, isDeclared, around.trans within⟩

theorem length_le_of_mem_dottedPrefixesFrom {before cs start : List Char}
    (inside : start ∈ dottedPrefixesFrom before cs) : before.length ≤ start.length := by
  obtain ⟨mid, rest, rfl, -, -⟩ := mem_dottedPrefixesFrom.mp inside
  rw [List.length_append, List.length_reverse]
  omega

theorem dottedPrefixesFrom_sorted (before cs : List Char) :
    (dottedPrefixesFrom before cs).Pairwise fun a b => a.length < b.length := by
  induction cs generalizing before with
  | nil => exact List.pairwise_singleton ..
  | cons c cs ih =>
    rw [dottedPrefixesFrom]
    split
    · refine List.pairwise_cons.mpr ⟨fun start later => ?_, ih _⟩
      have longer := length_le_of_mem_dottedPrefixesFrom later
      rw [List.length_cons] at longer
      rw [List.length_reverse]
      omega
    · exact ih _

theorem outermostFirst_leadingParts (name : String) :
    OutermostFirst ((dottedPrefixes name.toList).map String.ofList) := by
  intro earlier start later split outer _ inside
  have listed : start ∈ (dottedPrefixes name.toList).map String.ofList := by simp [split]
  have found := mem_leadingParts.mpr (IsWithin.trans (.inr inside) (mem_leadingParts.mp listed))
  have sorted : ((dottedPrefixes name.toList).map String.ofList).Pairwise
      fun a b => a.toList.length < b.toList.length := by
    rw [List.pairwise_map]
    simpa only [String.toList_ofList, dottedPrefixes] using dottedPrefixesFrom_sorted [] name.toList
  have shorter := inside.length_lt
  rw [split, List.pairwise_append, List.pairwise_cons] at sorted
  rw [split, List.mem_append, List.mem_cons] at found
  rcases found with before | rfl | behind
  · exact before
  · omega
  · have longer := sorted.2.1.1 outer behind
    omega

theorem OutermostFirst.append {first second : List String} (inFirst : OutermostFirst first)
    (inSecond : OutermostFirst second) : OutermostFirst (first ++ second) := by
  intro earlier name later split outer nonempty inside
  rcases List.append_eq_append_iff.mp split with ⟨middle, rfl, behind⟩ | ⟨middle, rfl, behind⟩
  · exact List.mem_append_right _ (inSecond _ _ _ behind outer nonempty inside)
  · cases middle with
    | nil => exact absurd (inSecond [] name later behind.symm outer nonempty inside) List.not_mem_nil
    | cons head middle =>
      obtain ⟨rfl, -⟩ := List.cons.inj behind
      exact inFirst _ _ _ rfl outer nonempty inside

theorem OutermostFirst.flatMap {α : Type} {f : α → List String} (each : ∀ x, OutermostFirst (f x)) (xs : List α) :
    OutermostFirst (xs.flatMap f) := by
  induction xs with
  | nil => intro earlier name later split; simp at split
  | cons x xs ih => exact (each x).append ih

/-- Only what is no name may be left out. -/
theorem OutermostFirst.filter {names : List String} (ordered : OutermostFirst names) :
    OutermostFirst (names.filter (· ≠ "")) := by
  intro earlier name later split outer nonempty inside
  obtain ⟨front, back, rfl, rfl, kept⟩ := List.filter_eq_append_iff.mp split
  obtain ⟨dropped, rest, rfl, none, -, -⟩ := List.filter_eq_cons_iff.mp kept
  have before := ordered (front ++ dropped) name rest (by simp) outer nonempty inside
  rcases List.mem_append.mp before with here | left
  · exact List.mem_filter.mpr ⟨here, by simpa using nonempty⟩
  · exact absurd (by simpa using nonempty) (none outer left)

/-- A name kept comes from a place with nothing new before it. -/
theorem exists_of_keepFirst_eq_append {names earlier later : List String}
    (split : keepFirst names = earlier ++ name :: later) :
    ∃ front back, names = front ++ name :: back ∧ ∀ other ∈ front, other ∈ earlier := by
  induction names generalizing earlier later with
  | nil => simp [keepFirst] at split
  | cons first more ih =>
    rw [keepFirst] at split
    cases earlier with
    | nil =>
      obtain ⟨rfl, -⟩ := List.cons.inj split
      exact ⟨[], more, rfl, by simp⟩
    | cons head earlier =>
      obtain ⟨rfl, kept⟩ := List.cons.inj split
      obtain ⟨front, rest, whole, rfl, tail⟩ := List.filter_eq_append_iff.mp kept
      obtain ⟨dropped, back, rfl, repeated, -, -⟩ := List.filter_eq_cons_iff.mp tail
      rw [← List.append_assoc] at whole
      obtain ⟨before, behind, rfl, inside⟩ := ih whole
      refine ⟨first :: before, behind, rfl, fun other member => ?_⟩
      by_cases same : other = first
      · exact same ▸ List.mem_cons_self
      · have left := inside other ((List.mem_cons.mp member).resolve_left same)
        rcases List.mem_append.mp left with here | again
        · exact List.mem_cons_of_mem _ (List.mem_filter.mpr ⟨here, by simpa using same⟩)
        · exact absurd (by simpa using same) (repeated other again)

theorem OutermostFirst.keepFirst {names : List String} (ordered : OutermostFirst names) :
    OutermostFirst (keepFirst names) := by
  intro earlier name later split outer nonempty inside
  obtain ⟨front, back, whole, kept⟩ := exists_of_keepFirst_eq_append split
  exact kept outer (ordered front name back whole outer nonempty inside)

theorem outermostFirst_namespaces (c : Catalog) : OutermostFirst c.namespaces :=
  ((OutermostFirst.flatMap outermostFirst_leadingParts c.declaredNamespaces).filter).keepFirst

/-- The last part of a name directly inside the parent. -/
def partBehind? (parent name : String) : Option String :=
  match dropStart? (parent.toList ++ ['.']) name.toList with
  | some rest => if rest.contains '.' then none else some (String.ofList rest)
  | none => none

theorem partBehind?_eq_some_iff :
    partBehind? parent name = some part ↔ '.' ∉ part.toList ∧ name = parent ++ "." ++ part := by
  unfold partBehind?
  constructor
  · intro found
    split at found
    · next rest dropped =>
      rw [Option.ite_none_left_eq_some] at found
      obtain ⟨undotted, same⟩ := found
      obtain rfl := Option.some.inj same
      refine ⟨by simpa using undotted, String.toList_inj.mp ?_⟩
      rw [eq_append_of_dropStart? dropped, toList_inside, String.toList_ofList, List.append_assoc,
        List.singleton_append]
    · simp at found
  · rintro ⟨undotted, rfl⟩
    have dropped : dropStart? (parent.toList ++ ['.']) (parent ++ "." ++ part).toList = some part.toList := by
      simp [dropStart?]
    rw [dropped]
    simp [undotted]

theorem mem_childNamespaces :
    part ∈ c.childNamespaces parent ↔ '.' ∉ part.toList ∧ parent ++ "." ++ part ∈ c.namespaces := by
  have listed : c.childNamespaces parent = c.namespaces.filterMap (partBehind? parent) := rfl
  simp only [listed, List.mem_filterMap, partBehind?_eq_some_iff]
  constructor
  · rintro ⟨name, member, undotted, rfl⟩
    exact ⟨undotted, member⟩
  · rintro ⟨undotted, member⟩
    exact ⟨_, member, undotted, rfl⟩

theorem nodup_namespaces (c : Catalog) : c.namespaces.Nodup := nodup_keepFirst _

theorem nodup_childNamespaces (c : Catalog) (parent : String) : (c.childNamespaces parent).Nodup := by
  refine (nodup_namespaces c).filterMap fun name other part here there => ?_
  rw [(partBehind?_eq_some_iff.mp here).2, (partBehind?_eq_some_iff.mp there).2]

theorem mem_rootNamespaces : name ∈ c.rootNamespaces ↔ name ∈ c.namespaces ∧ '.' ∉ name.toList := by
  simp [rootNamespaces]

/-- A dotted name is its last part inside the rest. -/
theorem exists_parent (dotted : '.' ∈ name.toList) :
    ∃ parent part, '.' ∉ part.toList ∧ name = parent ++ "." ++ part := by
  obtain ⟨later, earlier, split, undotted⟩ := List.eq_append_cons_of_mem (List.mem_reverse.mpr dotted)
  have whole : name.toList = earlier.reverse ++ '.' :: later.reverse := by
    rw [← List.reverse_reverse name.toList, split]
    simp
  refine ⟨String.ofList earlier.reverse, String.ofList later.reverse, by simpa using undotted, ?_⟩
  refine String.toList_inj.mp ?_
  rw [toList_inside, String.toList_ofList, String.toList_ofList, whole]

theorem IsChild.mem_namespaces {child : String} (isChild : IsChild c parent child) : child ∈ c.namespaces := by
  obtain ⟨part, inside, rfl⟩ := isChild
  exact (mem_childNamespaces.mp inside).2

/-- Every namespace is reached from a root, by induction on the length of its name. -/
theorem reachable_of_mem_namespaces (full : ∀ name, IsDeclared c name → HasFullParts name)
    (listed : name ∈ c.namespaces) : ∃ root ∈ c.rootNamespaces, Relation.ReflTransGen (IsChild c) root name := by
  induction size : name.toList.length using Nat.strongRecOn generalizing name with
  | ind size ih =>
    by_cases dotted : '.' ∈ name.toList
    · obtain ⟨parent, part, undotted, rfl⟩ := exists_parent dotted
      have inside : IsInside parent (parent ++ "." ++ part) := ⟨part, rfl⟩
      obtain ⟨-, declared, isDeclared, within⟩ := Catalog.mem_namespaces.mp listed
      have nonempty := (full declared isDeclared).ne_empty (IsWithin.trans (.inr inside) within)
      have parentListed := mem_namespaces_of_isWithin nonempty (.inr inside) listed
      obtain ⟨root, isRoot, path⟩ := ih _ (size ▸ inside.length_lt) parentListed rfl
      exact ⟨root, isRoot, path.tail ⟨part, mem_childNamespaces.mpr ⟨undotted, listed⟩, rfl⟩⟩
    · exact ⟨name, mem_rootNamespaces.mpr ⟨listed, dotted⟩, .refl⟩

theorem mem_namespaces_of_reachable {root : String} (isRoot : root ∈ c.rootNamespaces)
    (path : Relation.ReflTransGen (IsChild c) root name) : name ∈ c.namespaces := by
  cases path with
  | refl => exact (mem_rootNamespaces.mp isRoot).1
  | tail _ last => exact last.mem_namespaces

/-- Where no name has an empty part, the listing holds every name that is declared and every namespace around it,
each once and the outer ones first, and nothing else. The children of a namespace are the parts that lead to a
namespace, each once; what can be reached from the roots is what is listed, and what is known to be a namespace. -/
theorem namespaces_tree (c : Catalog) (full : ∀ name, IsDeclared c name → HasFullParts name) :
    c.namespaces.Nodup ∧
      (∀ name, name ∈ c.namespaces ↔ ∃ declared, IsDeclared c declared ∧ IsWithin name declared) ∧
      (∀ earlier outer inner later, c.namespaces = earlier ++ (outer ++ "." ++ inner) :: later → outer ∈ earlier) ∧
      (∀ parent part, '.' ∉ part.toList →
        (part ∈ c.childNamespaces parent ↔ parent ++ "." ++ part ∈ c.namespaces)) ∧
      (∀ parent, (c.childNamespaces parent).Nodup) ∧
      (∀ name, name ∈ c.namespaces ↔ ∃ root ∈ c.rootNamespaces, Relation.ReflTransGen (IsChild c) root name) ∧
      ∀ name, c.isNamespace name = true ↔ name ∈ c.namespaces := by
  refine ⟨nodup_namespaces c, fun name => ?_, fun earlier outer inner later split => ?_, fun parent part undotted => ?_,
    nodup_childNamespaces c, fun name => ⟨reachable_of_mem_namespaces full, ?_⟩, fun name => ?_⟩
  · rw [mem_namespaces, and_iff_right_iff_imp]
    rintro ⟨declared, isDeclared, within⟩
    exact (full declared isDeclared).ne_empty within
  · have listed : outer ++ "." ++ inner ∈ c.namespaces := by simp [split]
    obtain ⟨-, declared, isDeclared, within⟩ := mem_namespaces.mp listed
    have nonempty := (full declared isDeclared).ne_empty (IsWithin.trans (.inr ⟨inner, rfl⟩) within)
    exact outermostFirst_namespaces c earlier _ later split outer nonempty ⟨inner, rfl⟩
  · rw [mem_childNamespaces, and_iff_right undotted]
  · rintro ⟨root, isRoot, path⟩
    exact mem_namespaces_of_reachable isRoot path
  · rw [isNamespace, List.contains_iff_mem]

/-- A namespace three levels deep that is bound, and one that a workspace assembly declares beside it. -/
def yardCatalog : Catalog :=
  ⟨(({} : References).bind "Acme.Tools.Drill" "Lib").addWorkspace "Yard",
    [.memory [⟨"Yard", [{ namespaceName := some "Acme.Paint", name := "Can", kind := .classType },
      { name := "Loose", kind := .classType }]⟩]]⟩

theorem namespaces_tree_yard :
    (∀ name, IsDeclared yardCatalog name → HasFullParts name) ∧
      yardCatalog.namespaces = ["Acme", "Acme.Tools", "Acme.Tools.Drill", "Acme.Paint"] ∧
      yardCatalog.childNamespaces "Acme" = ["Tools", "Paint"] ∧
      ∃ root ∈ yardCatalog.rootNamespaces, Relation.ReflTransGen (IsChild yardCatalog) root "Acme.Tools.Drill" := by
  have listed : yardCatalog.namespaces = ["Acme", "Acme.Tools", "Acme.Tools.Drill", "Acme.Paint"] := by decide +kernel
  have named : ∀ name ∈ yardCatalog.declaredNamespaces, HasFullParts name := by decide +kernel
  have full : ∀ name, IsDeclared yardCatalog name → HasFullParts name := fun name isDeclared =>
    named name (mem_declaredNamespaces.mpr isDeclared)
  obtain ⟨-, -, -, -, -, reachable, -⟩ := namespaces_tree yardCatalog full
  exact ⟨full, listed, by decide +kernel, (reachable _).mp (by simp [listed])⟩

end Typeahead.Catalog
