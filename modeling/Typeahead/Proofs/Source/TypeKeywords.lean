import Typeahead.Proofs.Source.Enclosing

namespace Typeahead.Source

open Text

/-- The keyword stands here as a word of its own, and not behind a dot. -/
structure HasKeyword (p : Place) (keyword : List Char) : Prop where
  isKeyword : keyword ∈ typeKeywords
  stands : p.hasWord keyword = true
  undotted : p.before.head? ≠ some '.'

/-- The text behind a word that stands at a place. -/
def textBehind (word : List Char) (p : Place) : List Char := p.rest.drop word.length

/-- A blank of ASCII, and behind all blanks a word that can be a name. -/
def WordBehind (behind : List Char) : Prop :=
  behind.head?.any isAsciiBlank = true ∧
    (trimStart behind).head?.any (fun c => isIdentifierChar c && !c.isDigit) = true

/-- A blank of ASCII, and behind all blanks another clause of constraints. -/
def ClauseBehind (behind : List Char) : Prop :=
  behind.head?.any isAsciiBlank = true ∧ "where".toList <+: trimStart behind

/-- What follows a constraint: behind the blanks another clause, or a comma, a brace or whatever is no word. -/
def EndsConstraint (behind : List Char) : Prop :=
  "where".toList <+: trimStart behind ∨ (trimStart behind).head?.any isIdentifierChar = false

variable {text behind keyword : List Char} {caret : Nat} {p q : Place}

theorem isIdentifierChar_of_isAsciiBlank {c : Char} (blank : isAsciiBlank c = true) : isIdentifierChar c = false := by
  simp only [isAsciiBlank, Bool.or_eq_true, beq_iff_eq] at blank
  rcases blank with (((rfl | rfl) | rfl) | rfl) | rfl <;> decide

/-- No keyword begins another one. -/
theorem eq_of_prefix {first second rest : List Char} (isKeyword : first ∈ typeKeywords)
    (alsoKeyword : second ∈ typeKeywords) (begins : first <+: rest) (alsoBegins : second <+: rest) :
    first = second := by
  have apart : ∀ a ∈ typeKeywords, ∀ b ∈ typeKeywords, a <+: b → a = b := by decide
  rcases List.prefix_or_prefix_of_prefix begins alsoBegins with before | before
  · exact apart first isKeyword second alsoKeyword before
  · exact (apart second alsoKeyword first isKeyword before).symm

theorem declaresType_iff :
    declaresType p = true ↔ ∃ keyword, HasKeyword p keyword ∧ WordBehind (textBehind keyword p) := by
  simp only [declaresType, Bool.and_eq_true, Bool.not_eq_true', List.any_eq_true, List.isPrefixOf_iff_prefix]
  constructor
  · rintro ⟨alone, keyword, isKeyword, begins, blank, word⟩
    have noWord : p.before.head?.any isIdentifierChar = false := by
      cases front : p.before.head? with
      | none => rfl
      | some c => simp [front] at alone; simp [alone]
    have undotted : p.before.head? ≠ some '.' := by
      intro dot
      simp [dot] at alone
    have ends : (p.rest.drop keyword.length).head?.any isIdentifierChar = false := by
      cases next : (p.rest.drop keyword.length).head? with
      | none => rfl
      | some c =>
        rw [next] at blank
        exact isIdentifierChar_of_isAsciiBlank blank
    have stands : p.hasWord keyword = true := by
      rw [Place.hasWord, noWord, ends, List.isPrefixOf_iff_prefix.mpr begins]
      rfl
    exact ⟨keyword, ⟨isKeyword, stands, undotted⟩, blank, word⟩
  · rintro ⟨keyword, ⟨isKeyword, word, undotted⟩, blank, name⟩
    simp only [Place.hasWord, Bool.and_eq_true, Bool.not_eq_true', List.isPrefixOf_iff_prefix] at word
    obtain ⟨⟨begins, alone⟩, -⟩ := word
    refine ⟨?_, keyword, isKeyword, begins, blank, name⟩
    cases front : p.before.head? with
    | none => rfl
    | some c =>
      have notDot : c ≠ '.' := fun dot => undotted (by rw [front, dot])
      rw [front] at alone
      simpa [notDot] using alone

/-- A keyword is taken for a declaration exactly when a word follows it behind a blank. -/
theorem mem_typeDeclarations_iff (inText : p ∈ places text) (has : HasKeyword p keyword) :
    p ∈ typeDeclarations text ↔ WordBehind (textBehind keyword p) := by
  rw [typeDeclarations, List.mem_filter, declaresType_iff]
  constructor
  · rintro ⟨-, other, ⟨isKeyword, word, -⟩, behind⟩
    simp only [Place.hasWord, Bool.and_eq_true, List.isPrefixOf_iff_prefix] at word
    have begins := has.stands
    simp only [Place.hasWord, Bool.and_eq_true, List.isPrefixOf_iff_prefix] at begins
    obtain rfl := eq_of_prefix isKeyword has.isKeyword word.1.1 begins.1.1
    exact behind
  · intro behind
    exact ⟨inText, keyword, has, behind⟩

theorem wordBehind_iff_clauseBehind (ends : EndsConstraint behind) : WordBehind behind ↔ ClauseBehind behind := by
  refine and_congr_right fun _ => ⟨fun word => ends.resolve_right fun none => ?_, fun clause => ?_⟩
  · cases next : (trimStart behind).head? with
    | none => simp [next] at word
    | some c =>
      simp only [next, Option.any_some, Bool.and_eq_true] at word none
      simp [none] at word
  · obtain ⟨later, shape⟩ := clause
    rw [← shape]
    rfl

/-- The place between two parts of a text. -/
def placeBetween (before rest : List Char) : Place := ⟨utf8Length before, before.reverse, rest⟩

theorem mem_placesFrom_append (offset : Nat) (front before : List Char) (c : Char) (rest : List Char) :
    ⟨offset + utf8Length before, before.reverse ++ front, c :: rest⟩ ∈
      placesFrom offset front (before ++ c :: rest) := by
  induction before generalizing offset front with
  | nil => exact List.mem_cons_self
  | cons d before ih =>
    have later := ih (offset + d.utf8Size) (d :: front)
    rw [Nat.add_assoc] at later
    exact List.mem_cons_of_mem _ (by simpa using later)

theorem placeBetween_mem_places (before : List Char) (c : Char) (rest : List Char) :
    placeBetween before (c :: rest) ∈ places (before ++ c :: rest) := by
  have member := mem_placesFrom_append 0 [] before c rest
  rwa [Nat.zero_add, List.append_nil] at member

/-- The caret stands behind the place and between the first braces behind it. -/
def HoldsCaret (p : Place) (caret : Nat) : Prop :=
  p.offset < caret ∧ ∃ extent, HasExtent p extent ∧ extent.opening < caret ∧ ∀ stop ∈ extent.closing, caret ≤ stop

theorem encloses_iff :
    (∃ extent, Encloses text caret p extent) ↔ p ∈ typeDeclarations text ∧ HoldsCaret p caret := by
  constructor
  · rintro ⟨extent, declared, before, braces, opened, unclosed⟩
    exact ⟨declared, before, extent, braces, opened, unclosed⟩
  · rintro ⟨declared, before, extent, braces, opened, unclosed⟩
    exact ⟨extent, declared, before, braces, opened, unclosed⟩

/-- A place is told by its offset. -/
theorem eq_of_offset_eq (inText : p ∈ places text) (alsoInText : q ∈ places text) (same : p.offset = q.offset) :
    p = q := by
  obtain ⟨mid, between, distance⟩ := exists_between inText alsoInText same.le
  obtain ⟨split, offset⟩ := mem_places inText
  obtain ⟨otherSplit, -⟩ := mem_places alsoInText
  have nothing : mid = [] := by
    cases mid with
    | nil => rfl
    | cons c mid =>
      have := c.utf8Size_pos
      rw [utf8Length_cons] at distance
      omega
  rw [nothing, List.nil_append] at between
  rw [split, between] at otherSplit
  have front := List.reverse_injective (List.append_cancel_right otherSplit)
  obtain ⟨offset, before, rest⟩ := p
  obtain ⟨otherOffset, otherBefore, otherRest⟩ := q
  simp only at same front between
  rw [same, front, between]

/-- A type around the caret is found as the type there exactly when its keyword is taken for a declaration and no
declaration behind it holds the caret. -/
theorem enclosingType_eq_iff (within : caret ≤ utf8Length text) (inText : p ∈ places text)
    (holds : HoldsCaret p caret) :
    enclosingType text caret = TypeRegion.at? (nextDeclaration text caret) p ↔
      p ∈ typeDeclarations text ∧
        ∀ q ∈ typeDeclarations text, p.offset < q.offset → ¬ HoldsCaret q caret := by
  obtain ⟨before, extent, braces, opened, unclosed⟩ := holds
  obtain ⟨own, isOwn, start, -⟩ := braces.exists_region (nextDeclaration text caret)
  have bounds := nextDeclaration_bounds within
  rw [isOwn]
  constructor
  · intro found
    obtain ⟨last, _, encloses, region, others⟩ := exists_of_enclosingType within found
    obtain ⟨_, _, lastStart, -⟩ :=
      exists_encloses_of_regionAround? within encloses.declared encloses.before region
    obtain rfl := eq_of_offset_eq encloses.mem_places inText (by omega)
    refine ⟨encloses.declared, fun q declared later holds => ?_⟩
    obtain ⟨outer, other⟩ := encloses_iff.mpr ⟨declared, holds⟩
    have := others q outer other
    omega
  · rintro ⟨declared, alone⟩
    have around : Encloses text caret p extent := ⟨declared, before, braces, opened, unclosed⟩
    obtain ⟨r, found⟩ := Option.isSome_iff_exists.mp around.isSome_enclosingType
    obtain ⟨last, _, encloses, region, others⟩ := exists_of_enclosingType within found
    obtain ⟨lastDeclared, lastHolds⟩ := encloses_iff.mp ⟨_, encloses⟩
    have le := others p extent around
    have notLater : ¬ p.offset < last.offset := fun later => alone last lastDeclared later lastHolds
    obtain rfl := eq_of_offset_eq encloses.mem_places inText (by omega)
    have tried := (Option.filter_eq_some_iff.mp region).1
    rw [Nat.max_eq_left bounds.1, isOwn] at tried
    rw [found, tried]

/-- What counts as a type declaration. In every text a place is taken for one if and only if it holds a type
keyword with a word behind it, whatever the keyword is used for; a keyword among constraints if and only if
another clause of constraints follows it. And wherever the caret stands between the braces of a type, the region
found is that type's own if and only if its own keyword has a word behind it and no keyword after that, up to the
caret, has a word behind it and the caret between its braces. -/
theorem typeDeclarations_of_keywords (text : List Char) :
    (∀ p ∈ places text, ∀ keyword, HasKeyword p keyword →
      (p ∈ typeDeclarations text ↔ WordBehind (textBehind keyword p)) ∧
        (EndsConstraint (textBehind keyword p) →
          (p ∈ typeDeclarations text ↔ ClauseBehind (textBehind keyword p)))) ∧
      (∀ p ∈ typeDeclarations text, p ∈ places text ∧ ∃ keyword, HasKeyword p keyword) ∧
      ∀ caret ≤ utf8Length text, ∀ p ∈ places text, ∀ keyword, HasKeyword p keyword → HoldsCaret p caret →
        (enclosingType text caret = TypeRegion.at? (nextDeclaration text caret) p ↔
          WordBehind (textBehind keyword p) ∧
            ∀ q ∈ places text, ∀ other, HasKeyword q other → p.offset < q.offset → HoldsCaret q caret →
              ¬ WordBehind (textBehind other q)) := by
  refine ⟨fun p inText keyword has => ?_, fun p declared => ?_, fun caret within p inText keyword has holds => ?_⟩
  · have listed := mem_typeDeclarations_iff inText has
    exact ⟨listed, fun ends => listed.trans (wordBehind_iff_clauseBehind ends)⟩
  · obtain ⟨inText, isDeclaration⟩ := List.mem_filter.mp declared
    obtain ⟨keyword, has, -⟩ := declaresType_iff.mp isDeclaration
    exact ⟨inText, keyword, has⟩
  · rw [enclosingType_eq_iff within inText holds, mem_typeDeclarations_iff inText has]
    refine and_congr_right fun _ => ⟨fun alone q other keyword hasOther later holdsToo word => ?_,
      fun alone q declared later holdsToo => ?_⟩
    · exact alone q ((mem_typeDeclarations_iff other hasOther).mpr word) later holdsToo
    · obtain ⟨other, isDeclaration⟩ := List.mem_filter.mp declared
      obtain ⟨keyword, hasOther, word⟩ := declaresType_iff.mp isDeclaration
      exact alone q other keyword hasOther later holdsToo word

/-- A type with a constraint, and in it a method with two of them and a variable named `record`. -/
def guardedText : List Char := "class C<T>where T:class\x7bM<U>()where U:class,T\x7brecord=".toList

/-- The type of `guardedText`, and the constraint on its parameter. -/
def guardedType : Place := placeBetween [] guardedText

def guardedConstraint : Place :=
  placeBetween "class C<T>where T:".toList "class\x7bM<U>()where U:class,T\x7brecord=".toList

theorem typeDeclarations_of_keywords_guarded :
    (guardedType ∈ places guardedText ∧ HasKeyword guardedType "class".toList ∧ HoldsCaret guardedType 53) ∧
      enclosingType guardedText 53 = TypeRegion.at? (nextDeclaration guardedText 53) guardedType ∧
      (guardedConstraint ∈ places guardedText ∧ HasKeyword guardedConstraint "class".toList ∧
        EndsConstraint (textBehind "class".toList guardedConstraint)) ∧
      guardedConstraint ∉ typeDeclarations guardedText := by
  have isType : guardedType ∈ places guardedText := placeBetween_mem_places [] _ _
  have hasKeyword : HasKeyword guardedType "class".toList := ⟨by decide, by decide, by decide⟩
  have holds : HoldsCaret guardedType 53 :=
    ⟨by decide, ⟨23, none⟩,
      ⟨"class C<T>where T:class".toList, "M<U>()where U:class,T\x7brecord=".toList, by decide, by decide, by decide,
        by decide, closes_iff.mpr (by decide)⟩, by decide, by simp⟩
  have isConstraint : guardedConstraint ∈ places guardedText :=
    placeBetween_mem_places "class C<T>where T:".toList _ _
  have alsoKeyword : HasKeyword guardedConstraint "class".toList := ⟨by decide, by decide, by decide⟩
  have ends : EndsConstraint (textBehind "class".toList guardedConstraint) := .inr (by decide)
  obtain ⟨listed, -, found⟩ := typeDeclarations_of_keywords guardedText
  have only : typeDeclarationOffsets guardedText = [0] := by decide +kernel
  refine ⟨⟨isType, hasKeyword, holds⟩, ?_, ⟨isConstraint, alsoKeyword, ends⟩, ?_⟩
  · refine (found 53 (by decide) _ isType _ hasKeyword holds).mpr ⟨⟨by decide, by decide⟩, ?_⟩
    intro q inText other hasOther later _ word
    have declared := ((listed q inText other hasOther).1).mpr word
    have offset : q.offset ∈ typeDeclarationOffsets guardedText := List.mem_map_of_mem declared
    rw [only, List.mem_singleton] at offset
    omega
  · rw [((listed _ isConstraint _ alsoKeyword).2 ends)]
    rintro ⟨blank, -⟩
    exact absurd blank (by decide)

/-- A constraint in front of another clause, and a variable of a loop. -/
def constrainedText : List Char := "class C\x7bM<T,U>()where T:class where U:T\x7b".toList

def loopText : List Char := "class C\x7bM()\x7bforeach(var record in xs)\x7b".toList

/-- The constraint and the variable are taken for types, and for the types around the caret behind them. -/
theorem constraint_and_variable_are_declarations :
    typeDeclarationOffsets constrainedText = [0, 24] ∧
      (enclosingType constrainedText 40).map (fun r => (r.start, r.name)) = some (24, "where") ∧
      typeDeclarationOffsets loopText = [0, 24] ∧
      (enclosingType loopText 38).map (fun r => (r.start, r.name)) = some (24, "in") := by
  decide +kernel

end Typeahead.Source
