import Mathlib.Data.List.Induction
import Typeahead.Proofs.Catalog.Listing
import Typeahead.Proofs.Catalog.TypeTerm

namespace Typeahead.Catalog

open Text Typeahead.TypeName

/-- Characters of dotted names: no blanks, and no marks of type references or of nesting. -/
def isDottedChar (c : Char) : Bool := !isBlank c && !(['+', '<', '[', ']', '?'].contains c)

theorem not_mark_of_isDottedChar {c : Char} (plain : isDottedChar c = true) :
    isBlank c = false ∧ c ∉ ['+', '<', '[', ']', '?'] := by
  simpa [isDottedChar] using plain

/-- A part of a dotted name. -/
structure IsIdentifier (part : String) : Prop where
  nonempty : part ≠ ""
  plain : ∀ c ∈ part.toList, isDottedChar c = true ∧ c ≠ '.'

theorem IsIdentifier.of_all {part : String} (nonempty : part ≠ "")
    (plain : (part.toList.all fun c => isDottedChar c && c != '.') = true) : IsIdentifier part :=
  ⟨nonempty, fun c member => by simpa using List.all_eq_true.mp plain c member⟩

/-- A name of which the last `nested` parts are nested types, each in the one before it. -/
def spelled (parts : List String) (nested : Nat) : String :=
  "+".intercalate
    (".".intercalate (parts.take (parts.length - nested)) :: parts.drop (parts.length - nested))

def reading (namespaceText : String) (parts : List String) (nested : Nat) : String :=
  qualify namespaceText (spelled parts nested)

/-- The readings of a dotted name inside a namespace, those with fewer nested types first. -/
def readings (namespaceText : String) (parts : List String) : List String :=
  (List.range parts.length).map (reading namespaceText parts)

section Readings

variable {namespaceText : String} {parts : List String}

theorem qualify_append (namespaceText name more : String) :
    qualify namespaceText (name ++ more) = qualify namespaceText name ++ more := by
  unfold qualify
  split
  · rfl
  · simp only [String.append_assoc]

theorem reading_zero : reading namespaceText parts 0 = qualify namespaceText (".".intercalate parts) := by
  simp [reading, spelled]

theorem reading_snoc (last : String) (nested : Nat) :
    reading namespaceText (parts ++ [last]) (nested + 1) = reading namespaceText parts nested ++ "+" ++ last := by
  have length : (parts ++ [last]).length - (nested + 1) = parts.length - nested := by
    rw [List.length_append, List.length_singleton]
    omega
  have within : parts.length - nested ≤ parts.length := Nat.sub_le _ _
  have later : spelled (parts ++ [last]) (nested + 1) = spelled parts nested ++ "+" ++ last := by
    rw [spelled, spelled, length, List.take_append_of_le_length within, List.drop_append_of_le_length within,
      ← List.cons_append, String.intercalate_append_of_ne_nil (List.cons_ne_nil _ _) (List.cons_ne_nil _ _),
      String.intercalate_singleton]
  rw [reading, later, qualify_append, qualify_append, reading]

theorem spelled_nested (outer : String) (inner : List String) :
    spelled (outer :: inner) inner.length = "+".intercalate (outer :: inner) := by
  simp [spelled]

theorem dotted_snoc (nonempty : parts ≠ []) (last : String) :
    qualify namespaceText (".".intercalate (parts ++ [last])) =
      qualify namespaceText (".".intercalate parts) ++ "." ++ last := by
  rw [String.intercalate_append_of_ne_nil nonempty (List.cons_ne_nil _ _), String.intercalate_singleton,
    qualify_append, qualify_append]

/-- A part without dots is passed. -/
theorem nestings_part {part : List Char} (undotted : '.' ∉ part) (later before : List Char) :
    nestings later (part.reverse ++ before) = nestings (part ++ later) before := by
  induction part using List.reverseRecOn generalizing later with
  | nil => rfl
  | append_singleton part c ih =>
    have noDot : c ≠ '.' := by
      rintro rfl
      exact undotted (by simp)
    have rest : '.' ∉ part := fun member => undotted (by simp [member])
    rw [List.reverse_append, List.reverse_singleton, List.singleton_append, List.cons_append, nestings, if_neg noDot,
      ih rest, List.append_assoc, List.singleton_append]

theorem nestings_dot (later before : List Char) :
    nestings later ('.' :: before) = (before.reverse ++ '+' :: later) :: nestings ('+' :: later) before := by
  rw [nestings, if_pos rfl]

/-- The retries write the separators between the parts first, and only then those of the namespace. -/
theorem readings_prefix_nestings (namespaceText : String) (plain : ∀ part ∈ parts, '.' ∉ part.toList)
    (later : List Char) :
    (List.range (parts.length - 1)).map (fun i => (reading namespaceText parts (i + 1)).toList ++ later) <+:
      nestings later (qualify namespaceText (".".intercalate parts)).toList.reverse := by
  -- the retries go from the last separator on, so the parts are taken from the back
  induction parts using List.reverseRecOn generalizing later with
  | nil => exact List.nil_prefix
  | append_singleton front last ih =>
    cases empty : front with
    | nil => exact List.nil_prefix
    | cons first more =>
      rw [← empty]
      have nonempty : front ≠ [] := by simp [empty]
      have undotted : '.' ∉ last.toList := plain last (by simp)
      have earlier := ih (fun part member => plain part (List.mem_append_left _ member))
        ('+' :: (last.toList ++ later))
      have length : (front ++ [last]).length - 1 = (front.length - 1) + 1 := by
        simp [empty]
      have split : (qualify namespaceText (".".intercalate (front ++ [last]))).toList.reverse =
          last.toList.reverse ++ '.' :: (qualify namespaceText (".".intercalate front)).toList.reverse := by
        rw [dotted_snoc nonempty]
        simp
      rw [split, nestings_part undotted, nestings_dot, length, List.range_succ_eq_map, List.map_cons, List.map_map,
        List.reverse_reverse, List.cons_prefix_cons]
      refine ⟨by simp [reading_snoc, reading_zero], ?_⟩
      have same : (fun i => (reading namespaceText (front ++ [last]) (i + 1)).toList ++ later) ∘ Nat.succ =
          fun i => (reading namespaceText front (i + 1)).toList ++ '+' :: (last.toList ++ later) := by
        funext i
        simp [reading_snoc]
      rw [same]
      exact earlier

theorem readings_prefix_spellings (nonempty : parts ≠ []) (plain : ∀ part ∈ parts, '.' ∉ part.toList) :
    readings namespaceText parts <+: spellings (qualify namespaceText (".".intercalate parts)) := by
  obtain ⟨n, length⟩ : ∃ n, parts.length = n + 1 := Nat.exists_eq_succ_of_ne_zero (by simpa using nonempty)
  have retries := (readings_prefix_nestings namespaceText plain []).map String.ofList
  rw [length, Nat.add_sub_cancel, List.map_map] at retries
  rw [readings, spellings, length, List.range_succ_eq_map, List.map_cons, List.map_map, reading_zero,
    List.cons_prefix_cons]
  refine ⟨rfl, ?_⟩
  have same : String.ofList ∘ (fun i => (reading namespaceText parts (i + 1)).toList ++ []) =
      reading namespaceText parts ∘ Nat.succ := by
    funext i
    simp
  rwa [same] at retries

end Readings

section Resolution

/-- A dotted name as a whole reference. -/
structure IsWrittenName (written : String) : Prop where
  nonempty : written ≠ ""
  plain : ∀ ch ∈ written.toList, isDottedChar ch = true
  noAlias : keywordAlias? written = none

theorem keywordAlias?_eq_none_of_mem {name : String} (dotted : '.' ∈ name.toList) : keywordAlias? name = none := by
  have undotted : ∀ entry ∈ keywordAliases, '.' ∉ entry.1.toList := by decide
  refine List.lookup_eq_none_iff.mpr fun entry member => bne_iff_ne.mpr ?_
  rintro rfl
  exact undotted entry member dotted

variable {c : Catalog}

/-- A reference that is a name and nothing else is looked up as it is written. -/
theorem resolve?_name {written : String} (isName : IsWrittenName written) (qualifiers : List String) :
    c.resolve? written qualifiers =
      ((candidates written qualifiers).findSome? c.findType?).map fun info => { info } := by
  have free : ∀ ch ∈ written.toList, isBlank ch = false ∧ ch ∉ ['+', '<', '[', ']', '?'] := fun ch member =>
    not_mark_of_isDottedChar (isName.plain ch member)
  have trimmed : IsTrimmed written.toList :=
    ⟨by simpa using isName.nonempty, fun ch first => (free ch (List.mem_of_mem_head? first)).1,
      fun ch last => (free ch (List.mem_of_mem_getLast? last)).1⟩
  have noArray : TypeName.arrayElement? ⟨written⟩ = none := by
    have last : written.toList.getLast? ≠ some ']' := fun bracket =>
      (free ']' (List.mem_of_mem_getLast? bracket)).2 (by decide)
    rw [TypeName.arrayElement?, TypeName.isArray, beq_eq_false_iff_ne.mpr last]
    rfl
  have noArguments : TypeName.arguments ⟨written⟩ = [] := by
    have noBracket : ∀ ch ∈ written.toList, (ch == '<') = false := by
      intro ch member
      refine beq_eq_false_iff_ne.mpr ?_
      rintro rfl
      exact (free _ member).2 (by decide)
    rw [TypeName.arguments, breakFirst_eq_none noBracket]
  have base : TypeName.canonicalBase ⟨written⟩ = written := by
    have unmarked : ∀ ch ∈ written.toList, ch ≠ '<' ∧ ch ≠ '[' ∧ ch ≠ '?' := by
      intro ch member
      refine ⟨?_, ?_, ?_⟩ <;> (rintro rfl; exact (free _ member).2 (by decide))
    have noMarkers : ∀ ch ∈ ([] : List Char), ch = '?' := by simp
    have nothingBehind : ∀ ch ∈ ([] : List Char).head?, ch = '<' ∨ ch = '[' := by simp
    have whole := canonicalBase_text trimmed unmarked noMarkers nothingBehind
    simpa [isName.noAlias] using whole
  rw [resolve?]
  simp only [trimmed.trim_eq, String.ofList_toList, if_neg isName.nonempty, noArray, noArguments, base]

theorem isDottedChar_append_dot {front back : String} (inFront : ∀ ch ∈ front.toList, isDottedChar ch = true)
    (inBack : ∀ ch ∈ back.toList, isDottedChar ch = true) :
    ∀ ch ∈ (front ++ "." ++ back).toList, isDottedChar ch = true := by
  have dot : ∀ ch ∈ ".".toList, isDottedChar ch = true := List.all_eq_true.mp (by decide)
  simp only [String.toList_append, List.forall_mem_append]
  exact ⟨⟨inFront, dot⟩, inBack⟩

theorem isDottedChar_intercalate {parts : List String} (identifiers : ∀ part ∈ parts, IsIdentifier part) :
    ∀ ch ∈ (".".intercalate parts).toList, isDottedChar ch = true := by
  induction parts with
  | nil => simp
  | cons first more ih =>
    obtain ⟨here, others⟩ := List.forall_mem_cons.mp identifiers
    have inFirst : ∀ ch ∈ first.toList, isDottedChar ch = true := fun ch member => (here.plain ch member).1
    cases more with
    | nil => rwa [String.intercalate_singleton]
    | cons next more =>
      rw [String.intercalate_cons_cons]
      exact isDottedChar_append_dot inFirst (ih others)

theorem isWrittenName_intercalate {outer : String} {inner : List String}
    (identifiers : ∀ part ∈ outer :: inner, IsIdentifier part) (noAlias : keywordAlias? outer = none) :
    IsWrittenName (".".intercalate (outer :: inner)) := by
  have plain := isDottedChar_intercalate identifiers
  cases inner with
  | nil =>
    rw [String.intercalate_singleton] at plain ⊢
    exact ⟨(identifiers outer List.mem_cons_self).nonempty, plain, noAlias⟩
  | cons next inner => exact ⟨by simp, plain, keywordAlias?_eq_none_of_mem (by simp)⟩

theorem IsWrittenName.qualify {namespaceText name : String} (isName : IsWrittenName name)
    (plain : ∀ ch ∈ namespaceText.toList, isDottedChar ch = true) : IsWrittenName (qualify namespaceText name) := by
  unfold Catalog.qualify
  split
  · exact isName
  · exact ⟨by simp, isDottedChar_append_dot plain isName.plain, keywordAlias?_eq_none_of_mem (by simp)⟩

/-- The last reading is the full name. -/
theorem fullName_eq_reading {t : TypeInfo} {outer : String} {inner : List String}
    (named : t.name = "+".intercalate (outer :: inner)) :
    t.fullName = reading t.namespaceText (outer :: inner) inner.length := by
  rw [reading, spelled_nested, ← named]
  rfl

/-- The outermost part of a nested name. -/
theorem takeWhile_intercalate {outer : String} (plain : '+' ∉ outer.toList) (inner : List String) :
    ("+".intercalate (outer :: inner)).toList.takeWhile (· ≠ '+') = outer.toList := by
  have passes : ∀ c ∈ outer.toList, decide (c ≠ '+') = true := fun c member =>
    decide_eq_true fun plus => plain (plus ▸ member)
  cases inner with
  | nil => rw [String.intercalate_singleton, List.takeWhile_eq_self_iff.mpr passes]
  | cons next inner =>
    rw [String.intercalate_cons_cons, String.toList_append, String.toList_append, List.append_assoc,
      List.takeWhile_append_of_pos passes]
    simp

theorem findSome?_readings {find : String → Option TypeInfo} {namespaceText outer : String} {inner : List String}
    (none : ∀ nested < inner.length, find (reading namespaceText (outer :: inner) nested) = none) :
    (readings namespaceText (outer :: inner)).findSome? find =
      find (reading namespaceText (outer :: inner) inner.length) := by
  have earlier : ((List.range inner.length).map (reading namespaceText (outer :: inner))).findSome? find = .none := by
    refine List.findSome?_eq_none_iff.mpr fun name member => ?_
    obtain ⟨nested, within, rfl⟩ := List.mem_map.mp member
    exact none nested (List.mem_range.mp within)
  rw [readings, List.length_cons, List.range_succ, List.map_append, List.findSome?_append, earlier]
  simp

theorem isSome_findType?_nestedName {t : TypeInfo} {a : Assembly} {outer : String} {inner : List String}
    (named : t.name = "+".intercalate (outer :: inner)) (isOuter : IsIdentifier outer)
    (plain : ∀ ch ∈ t.namespaceText.toList, isDottedChar ch = true)
    (serves : a ∈ c.assembliesFor [t.namespaceText]) (member : t ∈ a.types) : (c.findType? t.fullName).isSome := by
  have unmarked {ch : Char} (isDotted : isDottedChar ch = true) : ch ≠ '+' := by
    rintro rfl
    exact (not_mark_of_isDottedChar isDotted).2 (by decide)
  have unnested : '+' ∉ t.namespaceText.toList := fun plus => unmarked (plain _ plus) rfl
  have outermost : t.name.toList.takeWhile (· ≠ '+') = outer.toList := by
    rw [named, takeWhile_intercalate fun plus => unmarked (isOuter.plain _ plus).1 rfl]
  have undotted : '.' ∉ t.name.toList.takeWhile (· ≠ '+') := by
    rw [outermost]
    exact fun dot => (isOuter.plain _ dot).2 rfl
  exact isSome_findType?_fullName (namespaceOf_of_outermost undotted unnested) serves member

/-- A nested type is reached by its dotted name at every depth, whether its namespace is in force or written in
front. Either way the result is the first reading of the name that some type bears, fewer nested types first; so
it is of the type's own full name where no type bears a reading before that. -/
theorem resolve?_nestedName {t : TypeInfo} {a : Assembly} {outer : String} {inner : List String}
    (named : t.name = "+".intercalate (outer :: inner)) (identifiers : ∀ part ∈ outer :: inner, IsIdentifier part)
    (noAlias : keywordAlias? outer = none) (plain : ∀ ch ∈ t.namespaceText.toList, isDottedChar ch = true)
    (serves : a ∈ c.assembliesFor [t.namespaceText]) (member : t ∈ a.types) :
    ∃ info, (readings t.namespaceText (outer :: inner)).findSome? c.findType? = some info ∧
      c.resolve? (".".intercalate (outer :: inner)) [t.namespaceText] = some { info } ∧
      c.resolve? (qualify t.namespaceText (".".intercalate (outer :: inner))) [""] = some { info } ∧
      ((∀ nested < inner.length, reading t.namespaceText (outer :: inner) nested ∉ c.typeNames) →
        info.fullName = t.fullName) := by
  have isName := isWrittenName_intercalate identifiers noAlias
  have isFound := isSome_findType?_nestedName named (identifiers outer List.mem_cons_self) plain serves member
  have inReadings : t.fullName ∈ readings t.namespaceText (outer :: inner) := by
    rw [fullName_eq_reading named]
    exact List.mem_map_of_mem (List.mem_range.mpr (by simp))
  obtain ⟨info, first⟩ := Option.isSome_iff_exists.mp (List.findSome?_isSome_iff.mpr ⟨_, inReadings, isFound⟩)
  have undotted : ∀ part ∈ outer :: inner, '.' ∉ part.toList := fun part inParts dot =>
    ((identifiers part inParts).plain _ dot).2 rfl
  have tried : (spellings (qualify t.namespaceText (".".intercalate (outer :: inner)))).findSome? c.findType? =
      some info := (readings_prefix_spellings (List.cons_ne_nil _ _) undotted).findSome?_eq_some first
  refine ⟨info, first, ?_, ?_, fun free => ?_⟩
  · rw [resolve?_name isName, candidates, List.flatMap_singleton, tried]
    rfl
  · have unqualified (name : String) : qualify "" name = name := rfl
    rw [resolve?_name (isName.qualify plain), candidates, List.flatMap_singleton, unqualified, tried]
    rfl
  · have none : ∀ nested < inner.length, c.findType? (reading t.namespaceText (outer :: inner) nested) = none :=
      fun nested within => Option.eq_none_iff_forall_ne_some.mpr fun other found =>
        free nested within (mem_typeNames_of_findType? found)
    rw [findSome?_readings none, ← fullName_eq_reading named] at first
    exact fullName_of_findType? first

/-- A type that is nested two deep. -/
def keyType : TypeInfo := { namespaceName := some "Lib.Core", name := "Map+Entry+Key", kind := .structType }

/-- A type whose full name is a reading of the same dotted name, with more nesting and a shorter namespace. -/
def deeperType : TypeInfo := { namespaceName := some "Lib", name := "Core+Map+Entry+Key", kind := .classType }

/-- A type whose full name is a reading with less nesting and a longer namespace. -/
def shallowType : TypeInfo := { namespaceName := some "Lib.Core.Map", name := "Entry+Key", kind := .classType }

def nestedCatalog (others : List TypeInfo) : Catalog :=
  boundCatalog [⟨"X", [keyType]⟩, ⟨"Y", others⟩] [("Lib", "Y"), ("Lib.Core", "X"), ("Lib.Core.Map", "Y")]

theorem resolve?_nestedName_key :
    keyType.name = "+".intercalate ["Map", "Entry", "Key"] ∧
      (∀ part ∈ ["Map", "Entry", "Key"], IsIdentifier part) ∧ keywordAlias? "Map" = none ∧
      (∀ ch ∈ keyType.namespaceText.toList, isDottedChar ch = true) ∧
      (nestedCatalog [deeperType]).resolve? "Map.Entry.Key" ["Lib.Core"] = some { info := keyType } ∧
      (nestedCatalog [deeperType]).resolve? "Lib.Core.Map.Entry.Key" [""] = some { info := keyType } := by
  have named : keyType.name = "+".intercalate ["Map", "Entry", "Key"] := by decide
  have identifiers : ∀ part ∈ ["Map", "Entry", "Key"], IsIdentifier part := by
    simp only [List.forall_mem_cons, List.not_mem_nil, false_implies, implies_true, and_true]
    exact ⟨.of_all (by decide) (by decide), .of_all (by decide) (by decide), .of_all (by decide) (by decide)⟩
  have noAlias : keywordAlias? "Map" = none := by decide
  have plain : ∀ ch ∈ keyType.namespaceText.toList, isDottedChar ch = true := List.all_eq_true.mp (by decide)
  have serves : ⟨"X", [keyType]⟩ ∈ (nestedCatalog [deeperType]).assembliesFor [keyType.namespaceText] := by decide
  obtain ⟨info, first, unqualified, qualified, -⟩ :=
    resolve?_nestedName named identifiers noAlias plain serves List.mem_cons_self
  have found : (readings "Lib.Core" ["Map", "Entry", "Key"]).findSome? (nestedCatalog [deeperType]).findType? =
      some keyType := by decide
  obtain rfl : keyType = info := Option.some.inj (found.symm.trans first)
  exact ⟨named, identifiers, noAlias, plain, unqualified, qualified⟩

example : (nestedCatalog [shallowType]).resolve? "Map.Entry.Key" ["Lib.Core"] = some { info := shallowType } := by
  decide

end Resolution

end Typeahead.Catalog
