import Typeahead.Lookup.Walk
import Typeahead.Proofs.Catalog.Nesting
import Typeahead.Proofs.Lookup.CandidateSet

namespace Typeahead.Catalog

open Lookup

theorem ancestry_eq_cons (c : Catalog) (t : ResolvedType) : ∃ bases, c.ancestry t = t :: bases := by
  rw [ancestry, ancestryFrom]
  exact ⟨_, rfl⟩

/-- The type itself comes first, and everything after it is at least one step up. -/
theorem numberedAncestry_eq_cons (c : Catalog) (t : ResolvedType) :
    ∃ bases, c.numberedAncestry t = (0, t) :: bases ∧ ∀ entry ∈ bases, entry.1 ≠ 0 := by
  obtain ⟨bases, shape⟩ := c.ancestry_eq_cons t
  refine ⟨(bases.zipIdx 1).map fun entry => (entry.2, entry.1), by simp [numberedAncestry, shape], ?_⟩
  intro entry member
  obtain ⟨⟨ancestor, depth⟩, numbered, rfl⟩ := List.mem_map.mp member
  have later := List.le_snd_of_mem_zipIdx numbered
  exact Nat.ne_of_gt later

theorem answersTo_of_lists {receiver : TypeInfo} {mode : BindingMode} {nonPublic : Bool} {depth : Nat}
    {m : MemberInfo} (listed : lists receiver mode nonPublic false depth m = true) :
    answersTo m.name mode nonPublic depth m = true := by
  simp only [lists, Bool.and_eq_true] at listed
  obtain ⟨⟨⟨⟨⟨_, shown⟩, _⟩, allowed⟩, _⟩, visible⟩ := listed
  simp [answersTo, shown, allowed, visible]

/-- Outside enums a list shows a member exactly when its name means it, statics of bases apart. -/
theorem lists_eq_answersTo {receiver : TypeInfo} (notEnum : receiver.kind ≠ .enumType) (mode : BindingMode)
    (nonPublic : Bool) (depth : Nat) (name : String) (m : MemberInfo) :
    (lists receiver mode nonPublic false depth m && m.name == name) =
      (answersTo name mode nonPublic depth m && !(mode == .typeStatics && depth != 0)) := by
  have other : (receiver.kind == TypeKind.enumType) = false := by simpa using notEnum
  simp only [lists, answersTo, other, Bool.false_and, Bool.not_false, Bool.true_and]
  ac_rfl

theorem MemberInfo.isNamed_item (m : MemberInfo) (asExtension : Bool) (name : String) :
    (m.item asExtension).isNamed name = (m.name == name) := rfl

theorem find?_memberItems (c : Catalog) (t : ResolvedType) (mode : BindingMode) (nonPublic inherited : Bool)
    (name : String) :
    (c.memberItems t mode nonPublic inherited).find? (Item.isNamed name) =
      (c.numberedAncestry t).findSome? fun (depth, ancestor) =>
        (ancestor.info.members.find? fun m =>
          lists t.info mode nonPublic inherited depth m && m.name == name).map (·.item false) := by
  rw [memberItems, List.find?_flatMap]
  simp only [List.find?_map, List.find?_filter, Function.comp_def, MemberInfo.isNamed_item,
    Bool.decide_and, Bool.decide_eq_true]

theorem isSome_findMember?_of_mem_memberItems {c : Catalog} {t : ResolvedType} {mode : BindingMode}
    {nonPublic : Bool} {item : Item} (listed : item ∈ c.memberItems t mode nonPublic false) :
    (c.findMember? t item.displayText mode nonPublic).isSome := by
  obtain ⟨⟨depth, ancestor⟩, numbered, shown⟩ := List.mem_flatMap.mp listed
  obtain ⟨m, kept, rfl⟩ := List.mem_map.mp shown
  obtain ⟨declared, lists⟩ := List.mem_filter.mp kept
  have answers := answersTo_of_lists lists
  rw [findMember?, List.findSome?_isSome_iff]
  refine ⟨(depth, ancestor), numbered, ?_⟩
  rw [Option.isSome_map, List.find?_isSome]
  exact ⟨m, declared, answers⟩

/-- The first listed member of a name is the one the name means. -/
theorem findMember?_of_find?_memberItems {c : Catalog} {t : ResolvedType} {mode : BindingMode}
    {nonPublic : Bool} {name : String} {item : Item} (notEnum : t.info.kind ≠ .enumType)
    (found : (c.memberItems t mode nonPublic false).find? (Item.isNamed name) = some item) :
    ∃ f, c.findMember? t name mode nonPublic = some f ∧ item = f.member.item false := by
  rw [find?_memberItems] at found
  simp only [lists_eq_answersTo notEnum] at found
  obtain ⟨earlier, ⟨depth, ancestor⟩, later, split, here, before⟩ := List.findSome?_eq_some_iff.mp found
  obtain ⟨m, answers, rfl⟩ := Option.map_eq_some_iff.mp here
  -- statics of bases are not listed, so an access to a type finds the member on the type itself
  have reached : mode = .typeStatics → depth = 0 := by
    intro statics
    have passes := List.find?_some answers
    simp only [statics, beq_self_eq_true, Bool.true_and, Bool.and_eq_true] at passes
    simpa using passes.2
  have first : mode = .typeStatics → earlier = [] := by
    intro statics
    obtain ⟨bases, shape, above⟩ := c.numberedAncestry_eq_cons t
    cases earlier with
    | nil => rfl
    | cons entry earlier =>
      rw [shape, List.cons_append, List.cons.injEq] at split
      exact absurd (reached statics) (above (depth, ancestor) (by simp [split.2]))
  refine ⟨⟨m, ancestor⟩, List.findSome?_eq_some_iff.mpr ⟨earlier, (depth, ancestor), later, split, ?_, ?_⟩, rfl⟩
  · have same : (!(mode == .typeStatics && depth != 0)) = true := by
      by_cases statics : mode = .typeStatics
      · simp [reached statics]
      · simp [statics]
    have means : ancestor.info.members.find? (answersTo name mode nonPublic depth) = some m := by
      simpa only [same, Bool.and_true] using answers
    simp only [means, Option.map_some]
  · intro entry inside
    have notStatics : mode ≠ .typeStatics := fun statics => by simp [first statics] at inside
    have none := before entry inside
    have same : (mode == BindingMode.typeStatics) = false := by simpa using notStatics
    simp only [same, Bool.false_and, Bool.not_false, Bool.and_true, Option.map_eq_none_iff] at none
    simp [none]

theorem isSome_findExtension?_of_mem_extensionItems {c : Catalog} {containers : List TypeInfo}
    {t : ResolvedType} {item : Item} (listed : item ∈ c.extensionItems containers t) :
    (findExtension? containers item.displayText).isSome := by
  obtain ⟨container, isContainer, shown⟩ := List.mem_flatMap.mp listed
  obtain ⟨m, kept, rfl⟩ := List.mem_map.mp shown
  obtain ⟨declared, fits⟩ := List.mem_filter.mp kept
  simp only [Bool.and_eq_true] at fits
  obtain ⟨⟨⟨⟨_, static⟩, extension⟩, _⟩, _⟩ := fits
  rw [findExtension?, List.findSome?_isSome_iff]
  refine ⟨container, isContainer, ?_⟩
  rw [Option.isSome_map, List.find?_isSome]
  exact ⟨m, declared, by simp [extension, static, MemberInfo.item, Item.named, Item.withSignature]⟩

end Typeahead.Catalog

namespace Typeahead.Lookup

open Catalog Source

namespace Scope

theorem hop_ne_missing_of_findMember? {s : Scope} {t : ResolvedType} {seg : Segment} {mode : BindingMode}
    {nonPublic : Bool} (found : (s.catalog.findMember? t seg.name mode nonPublic).isSome) :
    s.hop t seg mode nonPublic ≠ .missing := by
  obtain ⟨f, found⟩ := Option.isSome_iff_exists.mp found
  simp [hop, found]

theorem hop_ne_missing_of_findType? {s : Scope} {t : ResolvedType} {name : String} {nonPublic : Bool}
    (found : (s.catalog.findType? (t.fullName ++ "+" ++ name)).isSome) :
    s.hop t { name } .typeStatics nonPublic ≠ .missing := by
  obtain ⟨info, found⟩ := Option.isSome_iff_exists.mp found
  cases member : s.catalog.findMember? t name .typeStatics nonPublic <;>
    simp [hop, member, found, Segment.isPlain]

theorem hop_ne_missing_of_findExtension? {s : Scope} {t : ResolvedType} {seg : Segment} {mode : BindingMode}
    {nonPublic : Bool} (instances : mode ≠ .typeStatics)
    (found : (findExtension? s.importedTypes seg.name).isSome) : s.hop t seg mode nonPublic ≠ .missing := by
  obtain ⟨f, found⟩ := Option.isSome_iff_exists.mp found
  cases member : s.catalog.findMember? t seg.name mode nonPublic <;> simp [hop, member, found, instances]

/-- What an access may list, before names are merged: members, nested types and extension methods. -/
theorem mem_source_of_mem_enumerate {s : Scope} {t : ResolvedType} {mode : BindingMode} {nonPublic : Bool}
    {item : Item} (listed : item ∈ s.enumerate t mode nonPublic) :
    ∃ first, first.displayText = item.displayText ∧
      (first ∈ s.catalog.memberItems t mode nonPublic false ∨
        (mode = .typeStatics ∧ ∃ nested ∈ s.catalog.nestedTypes t, first = nested.item) ∨
        (mode ≠ .typeStatics ∧ first ∈ s.catalog.extensionItems s.importedTypes t)) := by
  obtain ⟨first, source, named⟩ := CandidateSet.exists_mem_of_mem_ofList listed
  refine ⟨first, named, ?_⟩
  rcases List.mem_append.mp source with reachable | extension
  · rcases List.mem_append.mp reachable with member | type
    · exact Or.inl member
    · by_cases statics : mode = .typeStatics
      · rw [if_pos statics] at type
        obtain ⟨nested, kept, rfl⟩ := List.mem_map.mp type
        exact Or.inr (Or.inl ⟨statics, nested, (List.mem_filter.mp kept).1, rfl⟩)
      · simp [statics] at type
  · by_cases statics : mode = .typeStatics
    · simp [statics] at extension
    · rw [if_neg statics] at extension
      exact Or.inr (Or.inr ⟨statics, extension⟩)

/-- A listed name leads to a declaration. -/
theorem hop_ne_missing_of_mem_enumerate {s : Scope} {t : ResolvedType} {mode : BindingMode} {nonPublic : Bool}
    (undotted : '.' ∉ t.info.name.toList) (unnested : '+' ∉ t.info.namespaceText.toList)
    {item : Item} (listed : item ∈ s.enumerate t mode nonPublic) :
    s.hop t { name := item.displayText } mode nonPublic ≠ .missing := by
  obtain ⟨first, named, member | ⟨rfl, nested, inside, rfl⟩ | ⟨instances, extension⟩⟩ :=
    mem_source_of_mem_enumerate listed
  · rw [← named]
    exact hop_ne_missing_of_findMember? (isSome_findMember?_of_mem_memberItems member)
  · rw [← named]
    exact hop_ne_missing_of_findType? (isSome_findType?_of_mem_nestedTypes undotted unnested inside)
  · rw [← named]
    exact hop_ne_missing_of_findExtension? instances (isSome_findExtension?_of_mem_extensionItems extension)

/-- A chain of one bare name fails only where no type is known for what the name means. -/
theorem step_eq_none_of_walk_failed {s : Scope} {t : ResolvedType} {name : String} {mode : BindingMode}
    {nonPublic : Bool} (failed : s.walk t [{ name }] mode nonPublic = .failed) :
    s.step t { name } (s.hop t { name } mode nonPublic) = none := by
  have mayEnd : ∀ hop : Hop, hop.mayEnd { name } = true := by intro hop; cases hop <;> rfl
  cases reached : s.step t { name } (s.hop t { name } mode nonPublic) with
  | none => rfl
  | some next =>
    unfold walk at failed
    split at failed
    · simp at failed
    · simp only [follow, mayEnd, reached] at failed
      split at failed
      · simp at failed
      · unfold Walk.ofType at failed
        split at failed <;> simp at failed

/-- An item that stems from a member describes the member its name means. -/
theorem describes_of_mem_memberItems {s : Scope} {t : ResolvedType} {mode : BindingMode} {nonPublic : Bool}
    {item : Item} (listed : item ∈ s.enumerate t mode nonPublic) (notEnum : t.info.kind ≠ .enumType)
    (stems : item.displayText ∈ (s.catalog.memberItems t mode nonPublic false).map (·.displayText)) :
    ∃ f, s.catalog.findMember? t item.displayText mode nonPublic = some f ∧ item.Describes f.member := by
  have made := CandidateSet.mergeAll?_of_mem listed
  obtain ⟨other, inside, named⟩ := List.mem_map.mp stems
  have some := List.find?_isSome.mpr
    ⟨other, inside, show other.isNamed item.displayText from by simp [Item.isNamed, named]⟩
  obtain ⟨first, found⟩ := Option.isSome_iff_exists.mp some
  obtain ⟨f, means, rfl⟩ := findMember?_of_find?_memberItems notEnum found
  refine ⟨f, means, ?_⟩
  -- members are listed first, so the first item of the name in the whole list is the member's
  rw [reachableItems, List.append_assoc, List.filter_append] at made
  rw [← List.head?_filter] at found
  obtain ⟨later, shape⟩ := List.head?_eq_some_iff.mp found
  rw [shape, List.cons_append] at made
  rw [← Option.some.inj made]
  exact (Item.describes_item f.member).foldl_merge _

/-- Whatever a list offers can be written as the next segment: its name leads to a declaration, so that
walking on fails only where the declaration's type is not known; and an item that stems from a member of
anything but an enum is made from the very member that the name means. -/
theorem enumerate_closed_under_navigation (s : Scope) (t : ResolvedType) (mode : BindingMode) (nonPublic : Bool)
    (undotted : '.' ∉ t.info.name.toList) (unnested : '+' ∉ t.info.namespaceText.toList)
    {item : Item} (listed : item ∈ s.enumerate t mode nonPublic) :
    let seg : Segment := { name := item.displayText }
    let hop := s.hop t seg mode nonPublic
    hop ≠ .missing ∧
      (s.walk t [seg] mode nonPublic = .failed → s.step t seg hop = none) ∧
      (t.info.kind ≠ .enumType →
        item.displayText ∈ (s.catalog.memberItems t mode nonPublic false).map (·.displayText) →
        ∃ f, s.catalog.findMember? t item.displayText mode nonPublic = some f ∧ item.Describes f.member) :=
  ⟨hop_ne_missing_of_mem_enumerate undotted unnested listed, step_eq_none_of_walk_failed,
    describes_of_mem_memberItems listed⟩

/-- A type with a method in two forms. -/
def overloadedType : TypeInfo :=
  { namespaceName := some "Acme", name := "Calc", kind := .classType
    members := [
      { name := "Add", kind := .method, typeName := "Acme.Calc" },
      { name := "Add", kind := .method, typeName := "Acme.Calc", parameters := [⟨"other", "Acme.Calc"⟩] }] }

def overloadedScope : Scope :=
  { catalog := ⟨{ workspace := ["Acme"] }, [.memory [⟨"Acme", [overloadedType]⟩]]⟩
    context := Context.of [] 0
    nonPublic := false }

def overloadedItem : Item :=
  { displayText := "Add", insertText := "Add", category := .methodOverload
    tooltip := some "Calc Add() (+1 overload)"
    overloads := ["Calc Add()", "Calc Add(Calc other)"], origin := "catalog" }

theorem enumerate_closed_under_navigation_overloads :
    overloadedItem ∈ overloadedScope.enumerate { info := overloadedType } .instanceMembers false ∧
      ∃ f, overloadedScope.catalog.findMember? { info := overloadedType } "Add" .instanceMembers false = some f ∧
        overloadedItem.Describes f.member := by
  have listed : overloadedItem ∈ overloadedScope.enumerate { info := overloadedType } .instanceMembers false := by
    decide +kernel
  have closed := enumerate_closed_under_navigation overloadedScope { info := overloadedType } .instanceMembers
    false (by decide) (by decide) listed
  exact ⟨listed, closed.2.2 (by decide) (by decide +kernel)⟩

/-- Two types of a namespace with the mark of nesting in its name, one nested in the other. The outer one
is in an assembly that serves every namespace, the inner one in an assembly that serves theirs. -/
def markedOuter : TypeInfo := { namespaceName := some "A+B", name := "Outer", kind := .classType }

def markedInner : TypeInfo := { namespaceName := some "A+B", name := "Outer+Inner", kind := .classType }

def markedScope : Scope :=
  { catalog := ⟨({ workspace := ["Shared"] } : References).bind "A+B" "Bound",
      [.memory [⟨"Shared", [markedOuter]⟩, ⟨"Bound", [markedInner]⟩]]⟩
    context := Context.of [] 0
    nonPublic := false }

/-- The mark of nesting in a namespace hides the nested types that a list offers there: the name of the
namespace is cut at the mark when the nested type is looked up. -/
theorem listed_nested_type_missing :
    (∀ t ∈ [markedOuter, markedInner], '.' ∉ t.name.toList) ∧
      markedScope.resolve? "A+B.Outer" = some { info := markedOuter } ∧
      markedInner.item ∈ markedScope.enumerate { info := markedOuter } .typeStatics false ∧
      markedScope.hop { info := markedOuter } { name := "Inner" } .typeStatics false = .missing ∧
      markedScope.walk { info := markedOuter } [{ name := "Inner" }] .typeStatics false = .failed := by
  decide +kernel

end Scope

end Typeahead.Lookup
