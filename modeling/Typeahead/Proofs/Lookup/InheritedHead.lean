import Mathlib.Tactic.Tauto
import Typeahead.Lookup.Stage
import Typeahead.Proofs.Lookup.Navigation
import Typeahead.Proofs.Restriction.Members

namespace Typeahead.Catalog

/-- A derived type sees no member that code of the base type does not see. -/
theorem MemberInfo.isVisible_of_subclass {m : MemberInfo} {nonPublic : Bool}
    (seen : m.isVisible nonPublic .subclass = true) (depth : Nat) :
    m.isVisible true (Reach.at depth false) = true := by
  cases access : m.access with
  | publicAccess => simp [isVisible, access]
  | protectedAccess | internalAccess => cases Reach.at depth false <;> simp [isVisible, access]
  | privateAccess => simp [isVisible, access] at seen

/-- What code of the base type sees and a derived type does not: its own private members, and internal ones unless
they count. -/
theorem MemberInfo.isVisible_subclass_eq_false_iff {m : MemberInfo} {depth : Nat} {nonPublic : Bool}
    (visible : m.isVisible true (Reach.at depth false) = true) :
    m.isVisible nonPublic .subclass = false ↔
      (m.access = .privateAccess ∧ depth = 0) ∨ (m.access = .internalAccess ∧ nonPublic = false) := by
  cases access : m.access with
  | publicAccess | protectedAccess | internalAccess => simp [isVisible, access]
  | privateAccess =>
    have own : depth = 0 := by
      by_cases above : depth = 0
      · exact above
      · simp [isVisible, access, Reach.at, above] at visible
    simp [isVisible, access, own]

end Typeahead.Catalog

namespace Typeahead.Source

/-- A type inherits no declarations from a base that the text does not declare. -/
theorem inheritedDeclarations_of_absent {text : List Char} {region : TypeRegion} {name : String}
    (written : region.bases = [name]) (absent : typeNamed text (simpleBaseName name) = none) :
    inheritedDeclarations text region = {} := by
  have regions : inheritedRegions text region = [] := by
    by_cases own : simpleBaseName name = region.name
    · simp [inheritedRegions, maxBases, baseRegions, written, own]
    · simp [inheritedRegions, maxBases, baseRegions, written, own, absent]
  rw [inheritedDeclarations, regions]
  rfl

end Typeahead.Source

namespace Typeahead.Lookup

open Catalog Source

/-- A member of a base type of the edited type, with the number of steps from the base type to the type that
declares it. -/
structure Inherited where
  base : ResolvedType
  depth : Nat
  found : Found
  deriving DecidableEq, Repr

namespace Scope

/-- The members of a base type and of what it derives from. -/
def membersThrough (s : Scope) (base : ResolvedType) : List Inherited :=
  (s.catalog.numberedAncestry base).flatMap fun (depth, declaring) =>
    declaring.info.members.map fun member => ⟨base, depth, member, declaring⟩

/-- The members of all base types, in the order of the search for one. -/
def inheritedMembers (s : Scope) : List Inherited := s.baseTypes.flatMap s.membersThrough

/-- The head of a chain takes the member for its name. -/
def heads (s : Scope) (name : String) (inherited : Inherited) : Bool :=
  answersTo name s.inheritedMode true inherited.depth inherited.found.member

/-- A derived type may see the member: no private one, and an internal one only where such members count. -/
def maySee (s : Scope) (inherited : Inherited) : Bool := inherited.found.member.isVisible s.nonPublic .subclass

/-- The head of a chain may take the member for its name, as lists treat access. -/
def mayHead (s : Scope) (name : String) (inherited : Inherited) : Bool :=
  let m := inherited.found.member
  m.name == name && !m.isHidden && s.inheritedMode.allows m.isStatic && s.maySee inherited

/-- A list of what a derived type sees of the base type shows the member. -/
def showsInherited (s : Scope) (inherited : Inherited) : Bool :=
  lists inherited.base.info s.inheritedMode s.nonPublic true inherited.depth inherited.found.member

/-- What a member stands for that is used without a receiver. -/
def memberWalk (s : Scope) (found : Found) : Walk :=
  if found.member.isVoid then .void else .ofType? (s.typeOf? found)

variable {s : Scope} {name : String} {inherited : Inherited}

theorem findMember?_base_eq (s : Scope) (base : ResolvedType) (name : String) :
    s.catalog.findMember? base name s.inheritedMode true =
      ((s.membersThrough base).find? (s.heads name)).map (·.found) := by
  rw [findMember?, membersThrough, List.find?_flatMap, List.map_findSome?]
  refine congrArg (List.findSome? · (s.catalog.numberedAncestry base)) (funext fun numbered => ?_)
  rw [Function.comp_apply, List.find?_map, Option.map_map]
  rfl

theorem inheritedMember?_eq (s : Scope) (name : String) :
    s.inheritedMember? name = (s.inheritedMembers.find? (s.heads name)).map fun inherited =>
      s.memberWalk inherited.found := by
  have search : s.inheritedMember? name = (s.baseTypes.findSome? fun base =>
      s.catalog.findMember? base name s.inheritedMode true).map s.memberWalk := rfl
  rw [search, inheritedMembers, List.find?_flatMap, List.map_findSome?, List.map_findSome?]
  simp only [Function.comp_def, findMember?_base_eq, Option.map_map]

theorem inheritedMember?_of_entity? {head : Segment} {w : Walk} (means : s.entity? head = some (.inherited w)) :
    s.inheritedMember? head.name = some w := by
  unfold entity? at means
  split at means
  · simp [Option.map_eq_some_iff] at means
  · simp only [Option.or_eq_some_iff, Option.map_eq_some_iff] at means
    obtain (((⟨_, -, ⟨⟩⟩ | ⟨-, _, -, ⟨⟩⟩) | ⟨-, _, -, ⟨⟩⟩) | ⟨-, _, -, ⟨⟩⟩) | ⟨-, _, found, ⟨⟩⟩ := means
    exact found

/-- The items of the inherited members that a list shows are the items of the list, nested types apart. -/
theorem items_inheritedMembers (s : Scope) :
    (s.inheritedMembers.filter s.showsInherited).map (fun inherited => inherited.found.member.item false) =
      s.baseTypes.flatMap fun base => s.catalog.memberItems base s.inheritedMode s.nonPublic true := by
  rw [inheritedMembers, List.filter_flatMap, List.map_flatMap]
  refine congrArg (List.flatMap · s.baseTypes) (funext fun base => ?_)
  rw [membersThrough, memberItems, List.filter_flatMap, List.map_flatMap]
  refine congrArg (List.flatMap · (s.catalog.numberedAncestry base)) (funext fun numbered => ?_)
  rw [List.filter_map, List.map_map]
  rfl

theorem heads_of_mayHead (may : s.mayHead name inherited = true) : s.heads name inherited = true := by
  simp only [mayHead, Bool.and_eq_true] at may
  obtain ⟨named, seen⟩ := may
  simp only [heads, answersTo, Bool.and_eq_true]
  exact ⟨named, MemberInfo.isVisible_of_subclass seen _⟩

theorem mayHead_of_heads (taken : s.heads name inherited = true) :
    s.mayHead name inherited = s.maySee inherited := by
  simp only [heads, answersTo, Bool.and_eq_true] at taken
  simp [mayHead, taken.1]

/-- What a list shows of a member that the head takes. -/
theorem showsInherited_iff (taken : s.heads name inherited = true) :
    s.showsInherited inherited = true ↔
      s.maySee inherited = true ∧ (s.inheritedMode = .typeStatics → inherited.depth = 0) ∧
        (inherited.base.info.kind = .enumType → inherited.depth = 0 ∧ inherited.found.member.kind ≠ .method) := by
  have visible :
      inherited.found.member.isVisible s.nonPublic (Reach.at inherited.depth true) = s.maySee inherited := rfl
  simp only [heads, answersTo, Bool.and_eq_true] at taken
  obtain ⟨⟨⟨-, shown⟩, allowed⟩, -⟩ := taken
  simp only [showsInherited, lists, shown, allowed, visible, Bool.and_true, Bool.and_eq_true, Bool.not_eq_true',
    Bool.and_eq_false_iff, beq_eq_false_iff_ne, bne_eq_false_iff_eq]
  tauto

/-- The member that the head takes is the first one that it may take exactly if a derived type sees it. -/
theorem maySee_iff_find?_mayHead (first : s.inheritedMembers.find? (s.heads name) = some inherited) :
    s.maySee inherited = true ↔ s.inheritedMembers.find? (s.mayHead name) = some inherited := by
  have taken := List.find?_some first
  rw [← mayHead_of_heads taken]
  refine ⟨fun may => ?_, List.find?_some⟩
  obtain ⟨-, earlier, later, split, before⟩ := List.find?_eq_some_iff_append.mp first
  refine List.find?_eq_some_iff_append.mpr ⟨may, earlier, later, split, fun other inside => ?_⟩
  have passed := before other inside
  simp only [Bool.not_eq_true'] at passed ⊢
  exact Bool.eq_false_iff.mpr fun mayOther => Bool.eq_false_iff.mp passed (heads_of_mayHead mayOther)

/-- Access to an inherited member at the head of a chain. Where a name means a member of a base type, it means the
first that code of the base type may see. A derived type may see that member exactly if it is the first of the
name that a derived type may see; it may not exactly if the member is private and declared by a base type of the
edited type itself, or internal where members that are not public do not count. Lists show the member exactly if
a derived type may see it, unless it is a static of a base of the base type in a static context, or one of an enum
that shows its values alone. -/
theorem inherited_head_access (s : Scope) {head : Segment} {w : Walk}
    (means : s.entity? head = some (.inherited w)) :
    (s.inheritedMembers.filter s.showsInherited).map (fun inherited => inherited.found.member.item false) =
        s.baseTypes.flatMap (fun base => s.catalog.memberItems base s.inheritedMode s.nonPublic true) ∧
      ∃ inherited, s.inheritedMembers.find? (s.heads head.name) = some inherited ∧
        w = s.memberWalk inherited.found ∧
        (s.maySee inherited = true ↔ s.inheritedMembers.find? (s.mayHead head.name) = some inherited) ∧
        (s.maySee inherited = false ↔
          (inherited.found.member.access = .privateAccess ∧ inherited.depth = 0) ∨
            (inherited.found.member.access = .internalAccess ∧ s.nonPublic = false)) ∧
        (s.showsInherited inherited = true ↔
          s.maySee inherited = true ∧ (s.inheritedMode = .typeStatics → inherited.depth = 0) ∧
            (inherited.base.info.kind = .enumType →
              inherited.depth = 0 ∧ inherited.found.member.kind ≠ .method)) := by
  have member := inheritedMember?_of_entity? means
  rw [inheritedMember?_eq] at member
  obtain ⟨inherited, first, rfl⟩ := Option.map_eq_some_iff.mp member
  have taken := List.find?_some first
  have visible : inherited.found.member.isVisible true (Reach.at inherited.depth false) = true := by
    simp only [heads, answersTo, Bool.and_eq_true] at taken
    exact taken.2
  exact ⟨items_inheritedMembers s, inherited, first, rfl, maySee_iff_find?_mayHead first,
    MemberInfo.isVisible_subclass_eq_false_iff visible, showsInherited_iff taken⟩

/-- A type without members, and a base type with a public and an internal one. -/
def gold : TypeInfo := { namespaceName := some "Acme", name := "Gold", kind := .classType }

def box : TypeInfo :=
  { namespaceName := some "Acme", name := "Box", kind := .classType
    members := [
      { name := "Key", kind := .property, typeName := "Acme.Box" },
      { name := "Tag", kind := .property, typeName := "Acme.Gold", access := .internalAccess }] }

/-- A type that derives from it, with a private member of the same name and a protected one. -/
def vaultKey : MemberInfo := { name := "Key", kind := .property, typeName := "Acme.Gold", access := .privateAccess }

def vaultLock : MemberInfo := { name := "Lock", kind := .property, typeName := "Acme.Box", access := .protectedAccess }

def vault : TypeInfo :=
  { namespaceName := some "Acme", name := "Vault", kind := .classType, baseType := some "Acme.Box"
    members := [vaultKey, vaultLock] }

/-- The body of a method of a type that derives from that one. -/
def safeCode : List Char := "using Acme; class Safe : Vault \x7b void Open() \x7b ".toList

def safeScope : Scope :=
  { catalog := ⟨{ workspace := ["Acme"] }, [.memory [⟨"Acme", [gold, box, vault]⟩]]⟩
    context := Context.of safeCode 47
    nonPublic := false }

def safeRegion : TypeRegion := ⟨12, 32, 47, "Safe", ["Vault"], false⟩

theorem inherited_safeScope : safeScope.context.inherited = {} := by
  have region : safeScope.context.region = some safeRegion := by decide +kernel
  have absent : typeNamed safeScope.context.text (simpleBaseName "Vault") = none := by decide +kernel
  calc
    safeScope.context.inherited =
        (safeScope.context.region.map (inheritedDeclarations safeScope.context.text)).getD {} := rfl
    _ = inheritedDeclarations safeScope.context.text safeRegion := by rw [region]; rfl
    _ = {} := inheritedDeclarations_of_absent rfl absent

theorem inherited_head_access_safe :
    safeScope.entity? { name := "Lock" } = some (.inherited (.type { info := box })) ∧
      safeScope.inheritedMembers.find? (safeScope.heads "Lock") =
        some ⟨{ info := vault }, 0, vaultLock, { info := vault }⟩ ∧
      safeScope.inheritedMembers.find? (safeScope.mayHead "Lock") =
        some ⟨{ info := vault }, 0, vaultLock, { info := vault }⟩ := by
  have means : safeScope.entity? { name := "Lock" } = some (.inherited (.type { info := box })) := by
    rw [entity?, inherited_safeScope]
    decide +kernel
  have taken : safeScope.inheritedMembers.find? (safeScope.heads "Lock") =
      some ⟨{ info := vault }, 0, vaultLock, { info := vault }⟩ := by
    decide +kernel
  obtain ⟨-, inherited, first, -, seen, -⟩ := inherited_head_access safeScope means
  obtain rfl := Option.some.inj (first.symm.trans taken)
  exact ⟨means, taken, seen.mp (by decide)⟩

/-- The head of a chain takes a private member of a base type, in front of the one that a derived type sees, and an
internal member where such members do not count; lists show neither. -/
theorem private_and_internal_members_at_head :
    (safeScope.entity? { name := "Key" } = some (.inherited (.type { info := gold })) ∧
        safeScope.inheritedMembers.find? (safeScope.heads "Key") =
          some ⟨{ info := vault }, 0, vaultKey, { info := vault }⟩ ∧
        vaultKey.access = .privateAccess ∧
        (safeScope.inheritedMembers.find? (safeScope.mayHead "Key")).map (fun seen => safeScope.memberWalk seen.found) =
          some (.type { info := box })) ∧
      (safeScope.nonPublic = false ∧
        safeScope.entity? { name := "Tag" } = some (.inherited (.type { info := gold })) ∧
        safeScope.inheritedMembers.find? (safeScope.mayHead "Tag") = none) ∧
      (safeScope.inheritedItems safeScope.inheritedMode).map (·.displayText) = ["Lock", "Key"] := by
  rw [entity?, entity?, inherited_safeScope]
  decide +kernel

end Scope

end Typeahead.Lookup
