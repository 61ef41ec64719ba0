import Typeahead.Catalog.Members
import Typeahead.Proofs.Text.Place

namespace Typeahead.Catalog

open Text

theorem TypeInfo.toList_fullName (t : TypeInfo) :
    t.fullName.toList =
      if t.namespaceText = "" then t.name.toList else t.namespaceText.toList ++ '.' :: t.name.toList := by
  unfold TypeInfo.fullName
  split <;> simp

/-- The outermost part of a name, where nested types follow it. -/
theorem takeWhile_nested {name rest : List Char} :
    (name ++ '+' :: rest).takeWhile (· ≠ '+') = name.takeWhile (· ≠ '+') := by
  induction name with
  | nil => rfl
  | cons c name ih =>
    by_cases same : c = '+'
    · simp [same]
    · rw [List.cons_append, List.takeWhile_cons_of_pos (by simpa using same),
        List.takeWhile_cons_of_pos (by simpa using same), ih]

/-- The namespace is read back from a full name whose outermost part has no dots. -/
theorem namespaceOf_of_outermost {t : TypeInfo} (undotted : '.' ∉ t.name.toList.takeWhile (· ≠ '+'))
    (unnested : '+' ∉ t.namespaceText.toList) : namespaceOf t.fullName = t.namespaceText := by
  have plain : ∀ c ∈ t.name.toList.takeWhile (· ≠ '+'), (c == '.') = false := fun c inside =>
    beq_eq_false_iff_ne.mpr fun dot => undotted (dot ▸ inside)
  have passes : ∀ c ∈ t.namespaceText.toList, decide (c ≠ '+') = true := fun c inside =>
    decide_eq_true fun plus => unnested (plus ▸ inside)
  rw [namespaceOf, TypeInfo.toList_fullName]
  by_cases bare : t.namespaceText = ""
  · rw [if_pos bare, breakLast_eq_none plain, bare]
  · rw [if_neg bare, List.takeWhile_append_of_pos passes, List.takeWhile_cons_of_pos (by decide),
      breakLast_append (by decide) plain]
    simp

/-- The namespace is read back from the full name of a nested type. -/
theorem namespaceOf_nested {t : TypeInfo} (undotted : '.' ∉ t.name.toList)
    (unnested : '+' ∉ t.namespaceText.toList) (inner : String) :
    namespaceOf (t.fullName ++ "+" ++ inner) = t.namespaceText := by
  let nested : TypeInfo := { t with name := t.name ++ "+" ++ inner }
  have name : nested.name.toList.takeWhile (· ≠ '+') = t.name.toList.takeWhile (· ≠ '+') := by
    simp only [nested, String.toList_append, List.append_assoc]
    exact takeWhile_nested
  have outermost : '.' ∉ nested.name.toList.takeWhile (· ≠ '+') := fun dot =>
    undotted ((List.takeWhile_prefix _).subset (name ▸ dot))
  have fullName : nested.fullName = t.fullName ++ "+" ++ inner := by
    by_cases none : t.namespaceName.getD "" = "" <;>
      simp [nested, TypeInfo.fullName, TypeInfo.namespaceText, none, String.append_assoc]
  rw [← fullName, namespaceOf_of_outermost outermost unnested]
  rfl

/-- A type whose full name ends in a bare name after the separator is nested and has that simple name. -/
theorem TypeInfo.simpleName_of_fullName_eq {t : TypeInfo} {outer inner : String}
    (named : t.fullName = outer ++ "+" ++ inner) (undotted : '.' ∉ inner.toList) (bare : '+' ∉ inner.toList) :
    t.isNested = true ∧ t.simpleName = inner := by
  have ends : ∃ earlier, t.name.toList = earlier ++ '+' :: inner.toList := by
    have chars := congrArg String.toList named
    simp only [TypeInfo.toList_fullName, String.toList_append, List.append_assoc] at chars
    split at chars
    · exact ⟨outer.toList, chars⟩
    · rcases List.append_eq_append_iff.mp chars with ⟨middle, same, rest⟩ | ⟨middle, same, rest⟩
      -- the dot after the namespace stands before the separator, since none stands after it
      · cases middle with
        | nil => simp at rest
        | cons c middle => exact ⟨middle, by simpa using (List.cons.inj rest).2⟩
      · cases middle with
        | nil => simp at rest
        | cons c middle =>
          have inside : inner.toList = middle ++ '.' :: t.name.toList := (List.cons.inj rest).2
          exact absurd (by simp [inside]) undotted
  obtain ⟨earlier, shape⟩ := ends
  have plain : ∀ c ∈ inner.toList, (c == '+') = false := by
    intro c within
    simpa using fun plus : c = '+' => bare (plus ▸ within)
  refine ⟨by simp [TypeInfo.isNested, shape], ?_⟩
  rw [TypeInfo.simpleName, shape, lastField_append (by decide) plain, String.ofList_toList]

/-- What a nested type is called inside the type that holds it. -/
theorem exists_name_of_mem_nestedTypes {c : Catalog} {t : ResolvedType} {nested : TypeInfo}
    (inside : nested ∈ c.nestedTypes t) :
    nested.namespaceText = t.info.namespaceText ∧
      nested.name.toList = t.info.name.toList ++ '+' :: nested.simpleName.toList ∧
      ∃ a ∈ c.assembliesFor [t.info.namespaceText], nested ∈ a.types := by
  obtain ⟨declared, fits⟩ := List.mem_filter.mp inside
  obtain ⟨a, listed, member⟩ := List.mem_flatMap.mp declared
  simp only [Bool.and_eq_true, beq_iff_eq, Option.any_eq_true] at fits
  obtain ⟨sameNamespace, rest, starts, direct⟩ := fits
  have split := eq_append_of_dropStart? starts
  simp only [List.append_assoc, List.singleton_append] at split
  have last : nested.simpleName.toList = rest := by
    have plain : ∀ c ∈ rest, (c == '+') = false := by
      intro c within
      simpa using fun plus : c = '+' => by simp [plus ▸ within] at direct
    rw [TypeInfo.simpleName, split, lastField_append (by decide) plain, String.toList_ofList]
  exact ⟨sameNamespace, by rw [last, split], a, listed, member⟩

theorem fullName_of_mem_nestedTypes {c : Catalog} {t : ResolvedType} {nested : TypeInfo}
    (inside : nested ∈ c.nestedTypes t) :
    nested.fullName = t.fullName ++ "+" ++ nested.simpleName := by
  obtain ⟨sameNamespace, named, _⟩ := exists_name_of_mem_nestedTypes inside
  apply String.toList_inj.mp
  simp only [ResolvedType.fullName, String.toList_append, TypeInfo.toList_fullName, sameNamespace, named]
  split <;> simp

theorem Assembly.isSome_find? {a : Assembly} {t : TypeInfo} (member : t ∈ a.types) :
    (a.find? t.fullName).isSome := by
  have named : t ∈ a.types.filter (·.fullName == t.fullName) := List.mem_filter.mpr ⟨member, by simp⟩
  rw [Assembly.find?, List.getLast?_eq_some_getLast (List.ne_nil_of_mem named)]
  rfl

/-- A type of an assembly that serves its namespace is found under its full name, or another of that name is. -/
theorem isSome_findType?_fullName {c : Catalog} {a : Assembly} {t : TypeInfo}
    (read : namespaceOf t.fullName = t.namespaceText) (listed : a ∈ c.assembliesFor [t.namespaceText])
    (member : t ∈ a.types) : (c.findType? t.fullName).isSome := by
  rw [findType?, read, List.findSome?_isSome_iff]
  exact ⟨a, listed, Assembly.isSome_find? member⟩

/-- A nested type that a list shows is found when it is named. -/
theorem isSome_findType?_of_mem_nestedTypes {c : Catalog} {t : ResolvedType} {nested : TypeInfo}
    (undotted : '.' ∉ t.info.name.toList) (unnested : '+' ∉ t.info.namespaceText.toList)
    (inside : nested ∈ c.nestedTypes t) :
    (c.findType? (t.fullName ++ "+" ++ nested.simpleName)).isSome := by
  obtain ⟨sameNamespace, _, a, listed, member⟩ := exists_name_of_mem_nestedTypes inside
  have named := fullName_of_mem_nestedTypes inside
  have read : namespaceOf nested.fullName = nested.namespaceText := by
    rw [named, sameNamespace]
    exact namespaceOf_nested undotted unnested _
  rw [← named]
  exact isSome_findType?_fullName read (sameNamespace ▸ listed) member

end Typeahead.Catalog
