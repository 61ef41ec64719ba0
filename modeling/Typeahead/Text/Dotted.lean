namespace Typeahead.Text

def dottedPrefixesFrom (before : List Char) : List Char → List (List Char)
  | [] => [before.reverse]
  | c :: cs =>
    if c = '.' then before.reverse :: dottedPrefixesFrom (c :: before) cs
    else dottedPrefixesFrom (c :: before) cs

/-- The leading parts of a dotted name, the shortest first: `A`, `A.B`, `A.B.C`. -/
def dottedPrefixes (name : List Char) : List (List Char) := dottedPrefixesFrom [] name

theorem mem_dottedPrefixesFrom {before name start : List Char} :
    start ∈ dottedPrefixesFrom before name ↔
      ∃ mid rest, start = before.reverse ++ mid ∧ name = mid ++ rest ∧
        (rest = [] ∨ rest.head? = some '.') := by
  induction name generalizing before with
  | nil =>
    simp only [dottedPrefixesFrom, List.mem_singleton]
    constructor
    · intro h
      exact ⟨[], [], by simp [h], rfl, Or.inl rfl⟩
    · rintro ⟨mid, rest, rfl, empty, _⟩
      obtain ⟨rfl, rfl⟩ := List.append_eq_nil_iff.mp empty.symm
      simp
  | cons c cs ih =>
    have later : start ∈ dottedPrefixesFrom (c :: before) cs ↔
        ∃ mid rest, start = before.reverse ++ c :: mid ∧ cs = mid ++ rest ∧
          (rest = [] ∨ rest.head? = some '.') := by
      simp [ih]
    have cases : (∃ mid rest, start = before.reverse ++ mid ∧ c :: cs = mid ++ rest ∧
          (rest = [] ∨ rest.head? = some '.')) ↔
        (start = before.reverse ∧ c = '.') ∨
        ∃ mid rest, start = before.reverse ++ c :: mid ∧ cs = mid ++ rest ∧
          (rest = [] ∨ rest.head? = some '.') := by
      constructor
      · rintro ⟨mid, rest, same, split, ends⟩
        cases mid with
        | nil =>
          simp only [List.nil_append] at split
          refine Or.inl ⟨by simpa using same, ?_⟩
          rw [← split] at ends
          simpa using ends
        | cons d mid =>
          simp only [List.cons_append, List.cons.injEq] at split
          exact Or.inr ⟨mid, rest, by rw [same, split.1], split.2, ends⟩
      · rintro (⟨rfl, rfl⟩ | ⟨mid, rest, rfl, rfl, ends⟩)
        · exact ⟨[], '.' :: cs, by simp, rfl, Or.inr rfl⟩
        · exact ⟨c :: mid, rest, rfl, rfl, ends⟩
    rw [cases, ← later]
    simp only [dottedPrefixesFrom]
    split
    · next dot => simp [dot]
    · next other => simp [other]

/-- A leading part ends where the name ends or at a dot. -/
theorem mem_dottedPrefixes {name start : List Char} :
    start ∈ dottedPrefixes name ↔
      ∃ rest, name = start ++ rest ∧ (rest = [] ∨ rest.head? = some '.') := by
  simp [dottedPrefixes, mem_dottedPrefixesFrom]

/-- The list without later repetitions. -/
def keepFirst : List String → List String
  | [] => []
  | name :: more => name :: (keepFirst more).filter (· ≠ name)

@[simp] theorem mem_keepFirst {names : List String} {name : String} :
    name ∈ keepFirst names ↔ name ∈ names := by
  induction names with
  | nil => rfl
  | cons first more ih =>
    by_cases same : name = first
    · simp [keepFirst, same]
    · simp [keepFirst, same, ih]

theorem nodup_keepFirst (names : List String) : (keepFirst names).Nodup := by
  induction names with
  | nil => exact List.nodup_nil
  | cons first more ih => exact List.nodup_cons.mpr ⟨by simp, ih.filter _⟩

end Typeahead.Text
