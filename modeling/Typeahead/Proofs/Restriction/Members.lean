import Typeahead.Catalog.Members
import Typeahead.Proofs.Restriction.Catalog

namespace Typeahead.Catalog

open Lookup

def Found.restrict (keep : Selection) (f : Found) : Found :=
  { f with declaring := f.declaring.restrict keep }

/-- The member of a find is one of those that stay. -/
def Found.isKept (keep : Selection) (f : Found) : Bool := keep f.declaring.fullName f.member

variable {keep : Selection} (c : Catalog)

@[simp] theorem parents_restrict (t : ResolvedType) : parents (t.restrict keep) = parents t := rfl

@[simp] theorem meet_map_restrict (met : List String) (types : List ResolvedType) :
    meet met (types.map (·.restrict keep)) = meet met types := List.foldl_map

theorem newParents_restrict (met : List String) (written : List TypeName) :
    (c.restrict keep).newParents met written = (c.newParents met written).map (·.restrict keep) := by
  induction written generalizing met with
  | nil => rfl
  | cons parent more ih =>
    simp only [newParents, findType?_restrict]
    cases c.findType? parent.canonicalBase with
    | none => exact ih met
    | some info =>
      show (if met.contains info.fullName = true then _ else _) = List.map _ (if _ then _ else _)
      by_cases known : met.contains info.fullName = true
      · rw [if_pos known, if_pos known, ih]
      · rw [if_neg known, if_neg known, List.map_cons, TypeInfo.fullName_restrict, ih]
        rfl

theorem ancestryFrom_restrict (met : List String) (queue : List ResolvedType) :
    (c.restrict keep).ancestryFrom met (queue.map (·.restrict keep)) =
      (c.ancestryFrom met queue).map (·.restrict keep) := by
  fun_induction ancestryFrom c met queue with
  | case1 => simp [ancestryFrom]
  | case2 met t queue found ih =>
    rw [List.map_cons, ancestryFrom, parents_restrict, newParents_restrict, meet_map_restrict, ← List.map_append,
      ih, List.map_cons]

theorem ancestry_restrict (t : ResolvedType) :
    (c.restrict keep).ancestry (t.restrict keep) = (c.ancestry t).map (·.restrict keep) :=
  c.ancestryFrom_restrict [t.fullName] [t]

theorem numberedAncestry_restrict (t : ResolvedType) :
    (c.restrict keep).numberedAncestry (t.restrict keep) =
      (c.numberedAncestry t).map fun (depth, ancestor) => (depth, ancestor.restrict keep) := by
  unfold numberedAncestry
  rw [ancestry_restrict, List.zipIdx_map, List.map_map, List.map_map]
  rfl

theorem supertypeNamesFrom_restrict (met : List String) (queue : List TypeInfo) :
    (c.restrict keep).supertypeNamesFrom met (queue.map (·.restrict keep)) = c.supertypeNamesFrom met queue := by
  fun_induction supertypeNamesFrom c met queue with
  | case1 => simp [supertypeNamesFrom]
  | case2 met info queue names ih =>
    have found : names.filterMap (c.restrict keep).findType? =
        (names.filterMap c.findType?).map (·.restrict keep) := by
      rw [List.map_filterMap]
      exact congrArg (List.filterMap · _) (funext fun name => c.findType?_restrict name)
    rw [List.map_cons, supertypeNamesFrom]
    show (c.restrict keep).supertypeNamesFrom _ (_ ++ names.filterMap _) = _
    rw [found, ← List.map_append]
    exact ih

theorem supertypeNames_restrict (t : ResolvedType) :
    (c.restrict keep).supertypeNames (t.restrict keep) = c.supertypeNames t :=
  c.supertypeNamesFrom_restrict _ [t.info]

theorem nestedTypes_restrict (t : ResolvedType) :
    (c.restrict keep).nestedTypes (t.restrict keep) = (c.nestedTypes t).map (·.restrict keep) := by
  unfold nestedTypes
  show List.filter _ (((c.restrict keep).assembliesFor [t.info.namespaceText]).flatMap (·.types)) = _
  rw [types_assembliesFor_restrict, List.filter_map]
  rfl

/-- A search for one member does not see that others are missing. -/
theorem find?_filter_of_kept {p q : MemberInfo → Bool} {members : List MemberInfo}
    (kept : ∀ m, members.find? p = some m → q m = true) : (members.filter q).find? p = members.find? p := by
  induction members with
  | nil => rfl
  | cons m members ih =>
    by_cases wanted : p m = true
    · have stays : q m = true := kept m (List.find?_cons_of_pos wanted)
      rw [List.filter_cons_of_pos stays, List.find?_cons_of_pos wanted, List.find?_cons_of_pos wanted]
    · rw [List.find?_cons_of_neg wanted] at kept ⊢
      rw [← ih kept]
      by_cases stays : q m = true
      · rw [List.filter_cons_of_pos stays, List.find?_cons_of_neg wanted]
      · rw [List.filter_cons_of_neg stays]

theorem memberItems_restrict {t : ResolvedType} {mode : BindingMode} {nonPublic inherited : Bool}
    (kept : ∀ depth ancestor, (depth, ancestor) ∈ c.numberedAncestry t → ∀ m ∈ ancestor.info.members,
      lists t.info mode nonPublic inherited depth m = true → keep ancestor.fullName m = true) :
    (c.restrict keep).memberItems (t.restrict keep) mode nonPublic inherited =
      c.memberItems t mode nonPublic inherited := by
  unfold memberItems
  rw [numberedAncestry_restrict, List.flatMap_map]
  rw [List.flatMap_def, List.flatMap_def]
  refine congrArg List.flatten (List.map_congr_left fun (depth, ancestor) above => congrArg (List.map _) ?_)
  show List.filter _ (ancestor.info.members.filter (keep ancestor.fullName)) = _
  rw [List.filter_filter]
  refine List.filter_congr fun m inside => ?_
  show (lists t.info mode nonPublic inherited depth m && keep ancestor.fullName m) = _
  cases listed : lists t.info mode nonPublic inherited depth m with
  | false => rfl
  | true => rw [kept depth ancestor above m inside listed, Bool.and_self]

theorem reachableItems_restrict {t : ResolvedType} {mode : BindingMode} {nonPublic inherited : Bool}
    (kept : ∀ depth ancestor, (depth, ancestor) ∈ c.numberedAncestry t → ∀ m ∈ ancestor.info.members,
      lists t.info mode nonPublic inherited depth m = true → keep ancestor.fullName m = true) :
    (c.restrict keep).reachableItems (t.restrict keep) mode nonPublic inherited =
      c.reachableItems t mode nonPublic inherited := by
  unfold reachableItems
  rw [c.memberItems_restrict kept, nestedTypes_restrict, List.filter_map, List.map_map]
  rfl

/-- A search through the members of several types, the first find counting. -/
theorem findSome?_members_restrict {ι : Type} (places : List ι) (declaring : ι → ResolvedType)
    (wanted : ι → MemberInfo → Bool)
    (kept : ∀ f, places.findSome? (fun i =>
        ((declaring i).info.members.find? (wanted i)).map (Found.mk · (declaring i))) = some f →
      f.isKept keep = true) :
    places.findSome? (fun i => (((declaring i).restrict keep).info.members.find? (wanted i)).map
        (Found.mk · ((declaring i).restrict keep))) =
      (places.findSome? fun i => ((declaring i).info.members.find? (wanted i)).map
        (Found.mk · (declaring i))).map (·.restrict keep) := by
  induction places with
  | nil => rfl
  | cons i places ih =>
    have same : ((declaring i).restrict keep).info.members.find? (wanted i) =
        (declaring i).info.members.find? (wanted i) := by
      refine find?_filter_of_kept fun m found => ?_
      exact kept ⟨m, declaring i⟩ (by simp [found])
    rw [List.findSome?_cons, List.findSome?_cons, same]
    cases found : (declaring i).info.members.find? (wanted i) with
    | some m => rfl
    | none =>
      rw [List.findSome?_cons, found] at kept
      exact ih kept

theorem findMember?_restrict {t : ResolvedType} {name : String} {mode : BindingMode} {nonPublic : Bool}
    (kept : ∀ f, c.findMember? t name mode nonPublic = some f → f.isKept keep = true) :
    (c.restrict keep).findMember? (t.restrict keep) name mode nonPublic =
      (c.findMember? t name mode nonPublic).map (·.restrict keep) := by
  unfold findMember?
  rw [numberedAncestry_restrict, List.findSome?_map]
  exact findSome?_members_restrict (c.numberedAncestry t) (·.2) (answersTo name mode nonPublic ·.1) kept

theorem extensionItems_restrict (containers : List TypeInfo) (t : ResolvedType)
    (kept : ∀ container ∈ containers, ∀ m ∈ container.members, m.access = .publicAccess →
      keep container.fullName m = true) :
    (c.restrict keep).extensionItems (containers.map (·.restrict keep)) (t.restrict keep) =
      c.extensionItems containers t := by
  unfold extensionItems
  rw [supertypeNames_restrict, List.filter_map, List.flatMap_map]
  rw [List.flatMap_def, List.flatMap_def]
  refine congrArg List.flatten (List.map_congr_left fun container inside => congrArg (List.map _) ?_)
  show List.filter _ (container.members.filter (keep container.fullName)) = _
  rw [List.filter_filter]
  refine List.filter_congr fun m declared => ?_
  by_cases isPublic : m.access = .publicAccess
  · rw [kept container (List.mem_filter.mp inside).1 m declared isPublic, Bool.and_true]
    rfl
  · have hidden : (m.access == .publicAccess) = false := beq_eq_false_iff_ne.mpr isPublic
    simp only [hidden, Bool.and_false, Bool.false_and]

theorem findExtension?_restrict (containers : List TypeInfo) (name : String)
    (kept : ∀ f, findExtension? containers name = some f → f.isKept keep = true) :
    findExtension? (containers.map (·.restrict keep)) name =
      (findExtension? containers name).map (·.restrict keep) := by
  unfold findExtension?
  rw [List.filter_map, List.findSome?_map]
  exact findSome?_members_restrict (containers.filter TypeInfo.isExtensionContainer)
    (fun container => { info := container }) (fun _ m => m.isExtension && m.isStatic && m.name == name) kept

/-- Access without regard to members that are not public. -/
theorem MemberInfo.access_of_isVisible {m : MemberInfo} {depth : Nat}
    (visible : m.isVisible false (Reach.at depth false) = true) : m.access = .publicAccess := by
  have reach : Reach.at depth false ≠ .subclass := by
    cases depth <;> simp [Reach.at]
  cases access : m.access with
  | publicAccess => rfl
  | _ => cases place : Reach.at depth false <;> simp [isVisible, access, place] at visible reach

/-- What a search finds is a member of the ancestry that answers to the name. -/
theorem mem_of_findMember? {c : Catalog} {t : ResolvedType} {name : String} {mode : BindingMode}
    {nonPublic : Bool} {f : Found} (found : c.findMember? t name mode nonPublic = some f) :
    ∃ depth, (depth, f.declaring) ∈ c.numberedAncestry t ∧ f.member ∈ f.declaring.info.members ∧
      answersTo name mode nonPublic depth f.member = true := by
  obtain ⟨⟨depth, ancestor⟩, above, here⟩ := List.exists_of_findSome?_eq_some found
  obtain ⟨m, answers, rfl⟩ := Option.map_eq_some_iff.mp here
  exact ⟨depth, above, List.mem_of_find?_eq_some answers, List.find?_some answers⟩

theorem mem_ancestry_of_mem_numbered {c : Catalog} {t ancestor : ResolvedType} {depth : Nat}
    (above : (depth, ancestor) ∈ c.numberedAncestry t) : ancestor ∈ c.ancestry t := by
  obtain ⟨⟨other, place⟩, inside, same⟩ := List.mem_map.mp above
  obtain ⟨-, rfl⟩ := Prod.mk.inj same
  exact List.fst_mem_of_mem_zipIdx inside

theorem access_of_findMember? {c : Catalog} {t : ResolvedType} {name : String} {mode : BindingMode}
    {f : Found} (found : c.findMember? t name mode false = some f) : f.member.access = .publicAccess := by
  obtain ⟨depth, -, -, answers⟩ := mem_of_findMember? found
  unfold answersTo at answers
  exact MemberInfo.access_of_isVisible (Bool.and_eq_true_iff.mp answers).2

/-- A selection that leaves out nothing that is public. -/
def Selection.KeepsPublic (keep : Selection) : Prop :=
  ∀ name m, m.access = .publicAccess → keep name m = true

theorem findMember?_restrict_of_public (keepsPublic : keep.KeepsPublic) (c : Catalog) (t : ResolvedType)
    (name : String) (mode : BindingMode) :
    (c.restrict keep).findMember? (t.restrict keep) name mode false =
      (c.findMember? t name mode false).map (·.restrict keep) :=
  c.findMember?_restrict fun _ found => keepsPublic _ _ (access_of_findMember? found)

theorem reachableItems_restrict_of_public (keepsPublic : keep.KeepsPublic) (c : Catalog) (t : ResolvedType)
    (mode : BindingMode) :
    (c.restrict keep).reachableItems (t.restrict keep) mode false false =
      c.reachableItems t mode false false := by
  refine c.reachableItems_restrict fun depth ancestor _ m _ listed => keepsPublic _ _ ?_
  unfold lists at listed
  exact MemberInfo.access_of_isVisible (Bool.and_eq_true_iff.mp listed).2

end Typeahead.Catalog
