import Typeahead.Proofs.Source.LineMarker
import Typeahead.Proofs.Source.MemberChain
import Typeahead.Proofs.Text.Blanks
import Typeahead.Proofs.Text.LastOccurrence
import Typeahead.Source.Directive

namespace Typeahead.Source

open Text

/-- A blank, or the equals sign behind the name of an alias. -/
def Separates (c : Char) : Prop := isBlank c = true ∨ c = '='

/-- The rest of a line behind words and a last separator. -/
def BehindWords (line rest : List Char) : Prop :=
  ∃ front last, line = front ++ last :: rest ∧ Separates last ∧ ∀ c ∈ front, Separates c ∨ isIdentifierChar c = true

variable {line middle rest text word : List Char} {typed : String} {c : Char}

namespace BehindWords

theorem words (word : List Char) (behind : BehindWords line rest)
    (words : ∀ c ∈ word, Separates c ∨ isIdentifierChar c = true) : BehindWords (word ++ line) rest := by
  obtain ⟨front, last, rfl, separates, others⟩ := behind
  refine ⟨word ++ front, last, by simp, separates, fun c member => ?_⟩
  exact (List.mem_append.mp member).elim (words c) (others c)

theorem trans (first : BehindWords line middle) (second : BehindWords middle rest) : BehindWords line rest := by
  obtain ⟨front, last, rfl, separates, others⟩ := first
  have words := second.words (front ++ [last]) fun c member => by
    rcases List.mem_append.mp member with inFront | isLast
    · exact others c inFront
    · exact .inl (List.mem_singleton.mp isLast ▸ separates)
  simpa using words

/-- Behind a separator further blanks are passed over. -/
theorem trimStart (separates : Separates c) (cs : List Char) : BehindWords (c :: cs) (trimStart cs) := by
  induction cs generalizing c with
  | nil => exact ⟨[], c, rfl, separates, by simp⟩
  | cons d cs ih =>
    rw [Text.trimStart, List.dropWhile_cons]
    split
    · next blank =>
      have further : BehindWords (d :: cs) (Text.trimStart cs) := ih (.inl blank)
      exact further.words [c] (by simpa using .inl separates)
    · exact ⟨[], c, rfl, separates, by simp⟩

theorem afterKeyword? {keyword : List Char} (letters : ∀ c ∈ keyword, isIdentifierChar c = true)
    (read : afterKeyword? keyword line = some rest) : BehindWords line rest := by
  unfold Source.afterKeyword? at read
  split at read
  · next later found =>
    rw [eq_append_of_dropStart? found]
    refine words _ ?_ fun c letter => .inr (letters c letter)
    split at read
    · next blank =>
      obtain rfl := Option.some.inj read
      cases later with
      | nil => simp at blank
      | cons c cs =>
        have isBlank : Text.isBlank c = true := by simpa using blank
        have trimmed : Text.trimStart (c :: cs) = Text.trimStart cs := by simp [Text.trimStart, isBlank]
        rw [trimmed]
        exact trimStart (.inl isBlank) cs
    · simp at read
  · simp at read

/-- Behind the name of an alias and its equals sign. -/
theorem afterName {name target : List Char} (split : breakFirst (· == '=') line = some (name, c, target))
    (letters : (trim name).all isIdentifierChar = true) : BehindWords line (Text.trimStart target) := by
  obtain ⟨rfl, isEquals, -⟩ := eq_append_of_breakFirst split
  refine (trimStart (.inr (by simpa using isEquals)) target).words _ fun d member => ?_
  by_cases blank : isBlank d = true
  · exact .inl (.inl blank)
  · have dark : isBlank d = false := by simpa using blank
    exact .inr (List.all_eq_true.mp letters d ((mem_trim_iff dark).mpr member))

end BehindWords

/-- The name that a directive imports, as far as it is typed, is the rest of its line. -/
theorem behindWords_usingPartial? (writing : usingPartial? text = some typed) :
    BehindWords (lastField (· == '\n') text) typed.toList ∧ ∀ c ∈ typed.toList, isDottedNameChar c = true := by
  simp only [usingPartial?, Option.bind_eq_bind, Option.bind_eq_some_iff] at writing
  obtain ⟨imported, read, writing⟩ := writing
  have ends {rest : List Char} (behind : BehindWords (lastField (· == '\n') text) rest)
      (name : (if "var ".toList.isPrefixOf rest = true then none
        else if rest.all isDottedNameChar = true then some (String.ofList rest) else none) = some typed) :
      BehindWords (lastField (· == '\n') text) typed.toList ∧ ∀ c ∈ typed.toList, isDottedNameChar c = true := by
    split at name
    · simp at name
    · split at name
      · next dotted =>
        obtain rfl := Option.some.inj name
        rw [String.toList_ofList]
        exact ⟨behind, List.all_eq_true.mp dotted⟩
      · simp at name
  have first : BehindWords (lastField (· == '\n') text) imported := by
    have blanks : ∀ c ∈ (lastField (· == '\n') text).takeWhile isBlank, Separates c ∨ isIdentifierChar c = true :=
      fun c member => .inl (.inl (List.all_eq_true.mp List.all_takeWhile c member))
    have line := (BehindWords.afterKeyword? (List.all_eq_true.mp (by decide +kernel)) read).words _ blanks
    rwa [trimStart, List.takeWhile_append_dropWhile] at line
  have second : BehindWords (lastField (· == '\n') text) ((afterKeyword? "static".toList imported).getD imported) := by
    cases further : afterKeyword? "static".toList imported with
    | none => exact first
    | some target => exact first.trans (.afterKeyword? (List.all_eq_true.mp (by decide +kernel)) further)
  split at writing
  · exact ends second writing
  · next name equals target split =>
    split at writing
    · next letters => exact ends (second.trans (.afterName split letters)) writing
    · simp at writing

theorem Separates.letter_or_endsBefore (separates : Separates c) : isIdentifierChar c = true ∨ EndsBefore c := by
  rw [or_iff_not_imp_left, Bool.not_eq_true]
  refine fun other => ⟨other, fun mark => ?_⟩
  simp only [List.mem_cons, List.not_mem_nil, or_false] at mark
  rcases separates with blank | rfl
  · rcases mark with rfl | rfl | rfl <;> exact absurd blank (by decide)
  · exact absurd mark (by decide)

theorem readsBack_dottedName (dotted : ∀ c ∈ word, isDottedNameChar c = true) : ReadsBack word := by
  induction word with
  | nil => exact readsBack_nil
  | cons c cs ih =>
    obtain ⟨first, others⟩ := List.forall_mem_cons.mp dotted
    exact (readsBack_letter first).append (ih others)

/-- Reading backwards over text without groups takes letters up to the first other character. -/
theorem entityBack_bare {taken cs rest : List Char} (inName : taken.head? ≠ some '(')
    (bare : ∀ c ∈ cs, isIdentifierChar c = true ∨ EndsBefore c) (stops : ∀ c ∈ rest.head?, EndsBefore c) :
    entityBack taken (cs ++ rest) = (cs.takeWhile isIdentifierChar).reverse ++ taken := by
  induction cs generalizing taken with
  | nil =>
    refine entityBack_of_stop ?_
    cases rest with
    | nil => rfl
    | cons c rest => exact stepBack_eq_none (stops c rfl) inName
  | cons c cs ih =>
    obtain ⟨first, others⟩ := List.forall_mem_cons.mp bare
    rcases first with letter | ends
    · have step : stepBack taken (c :: (cs ++ rest)) = some (c :: taken, cs ++ rest) := by simp [stepBack, letter]
      have stillInName : (c :: taken).head? ≠ some '(' := by
        rintro ⟨rfl⟩
        exact absurd letter (by decide)
      rw [List.cons_append, entityBack_of_step step, ih stillInName others, List.takeWhile_cons_of_pos letter]
      simp
    · have stop : ¬ isIdentifierChar c = true := by simp [ends.1]
      rw [List.cons_append, entityBack_of_stop (stepBack_eq_none ends inName), List.takeWhile_cons_of_neg stop]
      rfl

theorem depthBehind_dottedName (dotted : ∀ c ∈ word, isDottedNameChar c = true) : depthBehind word = 0 := by
  induction word with
  | nil => rfl
  | cons c cs ih =>
    obtain ⟨first, others⟩ := List.forall_mem_cons.mp dotted
    have flat : depthStep c = 0 := by
      unfold depthStep
      split
      · next opens => rcases opens with rfl | rfl | rfl <;> exact absurd first (by decide)
      · split
        · next closes => rcases closes with rfl | rfl | rfl <;> exact absurd first (by decide)
        · rfl
    rw [depthBehind, flat, ih others]
    rfl

/-- The access expression of a directive is the name, or runs on to its left over a blank that counts as a letter. -/
theorem Target.entity_of_usingPartial? (writing : usingPartial? text = some typed) :
    ∃ front, (Target.of text).entity.toList = front ++ typed.toList ∧ (∀ c ∈ front, isIdentifierChar c = true) ∧
      (front = [] ∨ ∃ c ∈ front, Text.isBlank c = true) := by
  obtain ⟨⟨front, last, line, separates, others⟩, dotted⟩ := behindWords_usingPartial? writing
  obtain ⟨earlier, whole, broken, -⟩ := exists_eq_append_lastField (· == '\n') text
  have bare : ∀ c ∈ last :: front.reverse, isIdentifierChar c = true ∨ EndsBefore c := by
    intro c member
    have word : Separates c ∨ isIdentifierChar c = true := by
      rcases List.mem_cons.mp member with rfl | inFront
      · exact .inl separates
      · exact others c (List.mem_reverse.mp inFront)
    rcases word with separates | letter
    · exact separates.letter_or_endsBefore
    · exact .inl letter
  have stops : ∀ c ∈ earlier.reverse.head?, EndsBefore c := by
    intro c first
    rw [List.head?_reverse] at first
    obtain rfl : c = '\n' := by simpa using broken c first
    exact ⟨rfl, by decide⟩
  have inName : typed.toList.head? ≠ some '(' := by
    intro first
    exact absurd (dotted '(' (List.mem_of_mem_head? first)) (by decide)
  have reversed : text.reverse = typed.toList.reverse ++ ((last :: front.reverse) ++ earlier.reverse) := by
    rw [whole, line]
    simp
  refine ⟨((last :: front.reverse).takeWhile isIdentifierChar).reverse, ?_, fun c member => ?_, ?_⟩
  · rw [Target.entity_of, String.toList_ofList, reversed, readsBack_dottedName dotted, List.append_nil,
      entityBack_bare inName bare stops]
  · exact List.all_eq_true.mp List.all_takeWhile c (List.mem_reverse.mp member)
  · by_cases letter : isIdentifierChar last = true
    · have blank : Text.isBlank last = true := by
        refine separates.resolve_right ?_
        rintro rfl
        exact absurd letter (by decide)
      exact .inr ⟨last, by simp [letter], blank⟩
    · simp [letter]

/-- A name with dots is split at its last dot. -/
theorem splitLastDot_dottedName {earlier later : List Char} (dotted : ∀ c ∈ earlier, isDottedNameChar c = true)
    (undotted : '.' ∉ later) : splitLastDot 0 (earlier ++ '.' :: later) = some (earlier, later) :=
  splitLastDot_append (by rw [depthBehind_dottedName dotted]; rfl) undotted

/-- Behind a dot outside every group the directive that is being written imports from the chain. -/
theorem breakLast_of_usingPartial? (writing : usingPartial? text = some typed)
    (dotted : (Target.of text).hasDot = true) (visible : ∀ c ∈ (Target.of text).chain.toList, isBlank c = false) :
    breakLast (· == '.') typed.toList =
      some ((Target.of text).chain.toList, '.', (Target.of text).lookAhead.toList) := by
  obtain ⟨front, entity, letters, runsOn⟩ := Target.entity_of_usingPartial? writing
  have named := (behindWords_usingPartial? writing).2
  have undotted : '.' ∉ front := fun member => absurd (letters '.' member) (by decide)
  have parts : (Target.of text).entity.toList =
      (Target.of text).chain.toList ++ '.' :: (Target.of text).lookAhead.toList := by
    refine (Target.entity_eq text).resolve_right ?_
    rintro ⟨-, same⟩
    simp [Target.hasDot, same] at dotted
  obtain ⟨parent, chain, name⟩ := eq_append_of_not_mem_left (entity.symm.trans parts) undotted
  -- the blank over which the access expression runs on would stand in the chain
  have alone : front = [] := by
    refine runsOn.resolve_right ?_
    rintro ⟨c, member, blank⟩
    have dark := visible c (chain ▸ List.mem_append_left _ member)
    simp [blank] at dark
  have dotted : '.' ∈ typed.toList := by simp [name]
  obtain ⟨earlier, later, split, last⟩ := eq_append_last_of_mem dotted
  have found : splitLastDot 0 (entityBack [] text.reverse) = some (earlier, later) := by
    have read : entityBack [] text.reverse = typed.toList := by
      rw [← String.toList_ofList (l := entityBack [] text.reverse), ← Target.entity_of, entity, alone, List.nil_append]
    rw [read, split]
    exact splitLastDot_dottedName (fun c member => named c (by simp [split, member])) last
  have target : (Target.of text).chain = String.ofList earlier ∧ (Target.of text).lookAhead = String.ofList later := by
    simp only [Target.of, found, and_self]
  rw [split, target.1, target.2, String.toList_ofList, String.toList_ofList, breakLast_mark last]

end Typeahead.Source
