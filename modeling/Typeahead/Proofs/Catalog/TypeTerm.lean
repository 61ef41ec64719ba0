import Mathlib.Data.List.TakeWhile
import Typeahead.Proofs.Text.Blanks
import Typeahead.Proofs.Text.Place
import Typeahead.TypeName

namespace Typeahead

open Text Typeahead.TypeName

/-- A dotted name. -/
structure DottedName where
  text : List Char
  nonempty : text ≠ []
  named : ∀ c ∈ text, isNameChar c = true

/-- White space. -/
structure Blanks where
  text : List Char
  blank : ∀ c ∈ text, isBlank c = true

mutual

/-- A type as written: a name, with type arguments or not, then question marks and array brackets. -/
inductive TypeTerm where
  /-- A name with its arguments; without any it may be a parameter. -/
  | apply (head : DottedName) (arguments : TypeArguments)
  | nullable (t : TypeTerm)
  | array (element : TypeTerm)

/-- Type arguments, each with the blanks around it. -/
inductive TypeArguments where
  | nil
  | cons (before : Blanks) (first : TypeTerm) (behind : Blanks) (more : TypeArguments)

end

mutual

def TypeTerm.text : TypeTerm → List Char
  | .apply head arguments => head.text ++ arguments.text
  | .nullable t => t.text ++ ['?']
  | .array element => element.text ++ ['[', ']']

/-- The arguments with their angle brackets; nothing for no arguments. -/
def TypeArguments.text : TypeArguments → List Char
  | .nil => []
  | .cons before first behind more => '<' :: (before.text ++ (first.text ++ (behind.text ++ more.moreText)))

/-- The arguments after the first one, with the bracket that ends the list. -/
def TypeArguments.moreText : TypeArguments → List Char
  | .nil => ['>']
  | .cons before next behind more => ',' :: (before.text ++ (next.text ++ (behind.text ++ more.moreText)))

end

/-- The reference as it is written. -/
def TypeTerm.typeName (t : TypeTerm) : TypeName := ⟨String.ofList t.text⟩

def TypeArguments.terms : TypeArguments → List TypeTerm
  | .nil => []
  | .cons _ first _ more => first :: more.terms

mutual

/-- Every name without arguments becomes what it is bound to, all at once. -/
def TypeTerm.subst (bound : String → Option TypeTerm) : TypeTerm → TypeTerm
  | .apply head .nil => (bound (String.ofList head.text)).getD (.apply head .nil)
  | .apply head (.cons before first behind more) =>
    .apply head (.cons before (first.subst bound) behind (more.subst bound))
  | .nullable t => .nullable (t.subst bound)
  | .array element => .array (element.subst bound)

def TypeArguments.subst (bound : String → Option TypeTerm) : TypeArguments → TypeArguments
  | .nil => .nil
  | .cons before first behind more => .cons before (first.subst bound) behind (more.subst bound)

end

/-- The parameters stand for the arguments in their order; the first of two parameters of one name counts,
and one without an argument stands for itself. -/
def bindings (parameters : List String) (arguments : List TypeTerm) (name : String) : Option TypeTerm :=
  (parameters.zip arguments).lookup name

mutual

/-- Parameters take no arguments: nothing that is applied bears the name of one. -/
def TypeTerm.IsOver (parameters : List String) : TypeTerm → Prop
  | .apply _ .nil => True
  | .apply head (.cons _ first _ more) =>
    String.ofList head.text ∉ parameters ∧ first.IsOver parameters ∧ more.IsOver parameters
  | .nullable t => t.IsOver parameters
  | .array element => element.IsOver parameters

def TypeArguments.IsOver (parameters : List String) : TypeArguments → Prop
  | .nil => True
  | .cons _ first _ more => first.IsOver parameters ∧ more.IsOver parameters

end

section Parts

theorem not_isNameChar_of_isBlank {c : Char} (blank : isBlank c = true) : isNameChar c = false := by
  have plain : ∀ n ∈ blankCodes, isNameChar (Char.ofNat n) = false := by decide +kernel
  exact forall_blank (p := fun c => isNameChar c = false) plain c blank

theorem not_isBlank_of_isNameChar {c : Char} (named : isNameChar c = true) : isBlank c = false := by
  rw [Bool.eq_false_iff]
  intro blank
  rw [not_isNameChar_of_isBlank blank] at named
  exact Bool.noConfusion named

theorem DottedName.ne {name : DottedName} {c mark : Char} (member : c ∈ name.text)
    (plain : isNameChar mark = false) : c ≠ mark := by
  rintro rfl
  rw [name.named c member] at plain
  exact Bool.noConfusion plain

theorem parts_cons_mark {c : Char} (mark : isNameChar c = false) (cs : List Char) :
    parts (c :: cs) = .mark c :: parts cs := by
  simp [parts, mark]

theorem parts_append_mark {c : Char} (mark : isNameChar c = false) (a b : List Char) :
    parts (a ++ c :: b) = parts a ++ .mark c :: parts b := by
  induction a with
  | nil => exact parts_cons_mark mark b
  | cons x a ih =>
    rw [List.cons_append, parts, parts, ih]
    by_cases named : isNameChar x = true
    · rw [if_pos named, if_pos named]
      cases parts a with
      | nil => rfl
      | cons first more => cases first <;> rfl
    · rw [if_neg named, if_neg named]
      rfl

theorem parts_name {text : List Char} (nonempty : text ≠ []) (named : ∀ c ∈ text, isNameChar c = true) :
    parts text = [.name text] := by
  induction text with
  | nil => exact absurd rfl nonempty
  | cons c text ih =>
    rw [parts, if_pos (named c List.mem_cons_self)]
    cases text with
    | nil => rfl
    | cons d text => rw [ih (by simp) fun x member => named x (List.mem_cons_of_mem _ member)]

theorem head?_mark {mark : Char} (isMark : isNameChar mark = false) (cs : List Char) :
    ∀ c ∈ (mark :: cs).head?, isNameChar c = false := by
  intro c first
  obtain rfl : mark = c := Option.some.inj first
  exact isMark

theorem head?_blanks_append (blanks : Blanks) {rest : List Char}
    (apart : ∀ c ∈ rest.head?, isNameChar c = false) :
    ∀ c ∈ (blanks.text ++ rest).head?, isNameChar c = false := by
  intro c first
  cases split : blanks.text with
  | nil =>
    rw [split] at first
    exact apart c first
  | cons d text =>
    rw [split] at first
    obtain rfl : d = c := by simpa using first
    exact not_isNameChar_of_isBlank (blanks.blank d (by simp [split]))

section Rewriting

variable {change : Part → List Char} (keeps : ∀ c, change (.mark c) = [c])

/-- The text with its parts changed. -/
def rewritten (change : Part → List Char) (cs : List Char) : List Char := (parts cs).flatMap change

theorem rewritten_name (name : DottedName) : rewritten change name.text = change (.name name.text) := by
  rw [rewritten, parts_name name.nonempty name.named, List.flatMap_singleton]

include keeps

theorem rewritten_append_mark {c : Char} (mark : isNameChar c = false) (a b : List Char) :
    rewritten change (a ++ c :: b) = rewritten change a ++ c :: rewritten change b := by
  rw [rewritten, parts_append_mark mark, List.flatMap_append, List.flatMap_cons, keeps, List.singleton_append]
  rfl

theorem rewritten_cons_mark {c : Char} (mark : isNameChar c = false) (cs : List Char) :
    rewritten change (c :: cs) = c :: rewritten change cs := rewritten_append_mark keeps mark [] cs

/-- A name does not go on over a mark. -/
theorem rewritten_append {rest : List Char} (apart : ∀ c ∈ rest.head?, isNameChar c = false) (a : List Char) :
    rewritten change (a ++ rest) = rewritten change a ++ rewritten change rest := by
  cases rest with
  | nil => simp [rewritten, parts]
  | cons c rest =>
    rw [rewritten_append_mark keeps (apart c rfl), rewritten_cons_mark keeps (apart c rfl)]

theorem rewritten_marks {marks : List Char} (areMarks : ∀ c ∈ marks, isNameChar c = false) (rest : List Char) :
    rewritten change (marks ++ rest) = marks ++ rewritten change rest := by
  induction marks with
  | nil => rfl
  | cons c marks ih =>
    rw [List.cons_append, rewritten_cons_mark keeps (areMarks c List.mem_cons_self),
      ih fun x member => areMarks x (List.mem_cons_of_mem _ member)]
    rfl

theorem rewritten_blanks (blanks : Blanks) (rest : List Char) :
    rewritten change (blanks.text ++ rest) = blanks.text ++ rewritten change rest :=
  rewritten_marks keeps (fun c member => not_isNameChar_of_isBlank (blanks.blank c member)) rest

/-- A text with blanks around it, and the mark behind it. -/
theorem rewritten_between (before behind : Blanks) {mark : Char} (isMark : isNameChar mark = false)
    (cs rest : List Char) :
    rewritten change (before.text ++ (cs ++ (behind.text ++ mark :: rest))) =
      before.text ++ (rewritten change cs ++ (behind.text ++ mark :: rewritten change rest)) := by
  rw [rewritten_blanks keeps, rewritten_append keeps (head?_blanks_append behind (head?_mark isMark rest)),
    rewritten_blanks keeps, rewritten_cons_mark keeps isMark]

end Rewriting

end Parts

section Substitution

variable (parameters : List String) (arguments : List TypeTerm)

/-- The argument that a name is replaced by stands at the place of the parameter. -/
theorem replacement?_map {α : Type} (render : α → TypeName) (parameters : List String) (arguments : List α)
    (name : String) :
    replacement? parameters (arguments.map render) name = ((parameters.zip arguments).lookup name).map render := by
  unfold replacement?
  induction parameters generalizing arguments with
  | nil => rfl
  | cons p ps ih =>
    rw [List.findIdx?_cons]
    cases arguments with
    | nil => simp
    | cons a as =>
      rw [List.zip_cons_cons, List.lookup_cons]
      by_cases here : p = name
      · subst here
        simp
      · have apart : (name == p) = false := beq_eq_false_iff_ne.mpr (Ne.symm here)
        rw [apart, ← ih, if_neg (by simpa using here)]
        cases ps.findIdx? (· == name) <;> simp

theorem lookup_zip_eq_none {α : Type} {parameters : List String} (arguments : List α) {name : String}
    (free : name ∉ parameters) : (parameters.zip arguments).lookup name = none := by
  rw [List.lookup_eq_none_iff]
  intro pair member
  have inside : pair.1 ∈ parameters := (List.of_mem_zip member).1
  exact bne_iff_ne.mpr fun same => free (same ▸ inside)

theorem bindings_eq_none {name : String} (free : name ∉ parameters) : bindings parameters arguments name = none :=
  lookup_zip_eq_none arguments free

/-- The text with its parameters replaced. -/
def replaced (cs : List Char) : List Char :=
  (parts cs).flatMap (Part.substitute parameters (arguments.map (·.typeName)))

theorem replaced_cons_mark {c : Char} (mark : isNameChar c = false) (cs : List Char) :
    replaced parameters arguments (c :: cs) = c :: replaced parameters arguments cs :=
  rewritten_cons_mark (fun _ => rfl) mark cs

theorem replaced_append {rest : List Char} (apart : ∀ c ∈ rest.head?, isNameChar c = false) (a : List Char) :
    replaced parameters arguments (a ++ rest) =
      replaced parameters arguments a ++ replaced parameters arguments rest :=
  rewritten_append (fun _ => rfl) apart a

theorem replaced_blanks (blanks : Blanks) (rest : List Char) :
    replaced parameters arguments (blanks.text ++ rest) = blanks.text ++ replaced parameters arguments rest :=
  rewritten_blanks (fun _ => rfl) blanks rest

theorem replaced_name (name : DottedName) :
    replaced parameters arguments name.text =
      match bindings parameters arguments (String.ofList name.text) with
      | some t => t.text
      | none => name.text := by
  have bound : replacement? parameters (arguments.map (·.typeName)) (String.ofList name.text) =
      (bindings parameters arguments (String.ofList name.text)).map (·.typeName) :=
    replacement?_map _ parameters arguments _
  refine (rewritten_name name).trans ?_
  rw [Part.substitute, bound]
  cases bindings parameters arguments (String.ofList name.text) with
  | none => rfl
  | some t => simp [TypeTerm.typeName]

theorem head?_moreText (more : TypeArguments) : ∀ c ∈ more.moreText.head?, isNameChar c = false := by
  cases more with
  | nil =>
    rw [TypeArguments.moreText]
    exact head?_mark (by decide) []
  | cons before next behind more =>
    rw [TypeArguments.moreText]
    exact head?_mark (by decide) _

theorem head?_text_arguments (as : TypeArguments) : ∀ c ∈ as.text.head?, isNameChar c = false := by
  cases as with
  | nil => simp [TypeArguments.text]
  | cons before first behind more =>
    rw [TypeArguments.text]
    exact head?_mark (by decide) _

/-- An argument with the blanks around it and what follows. -/
theorem replaced_argument (before behind : Blanks) (cs : List Char) (more : TypeArguments) :
    replaced parameters arguments (before.text ++ (cs ++ (behind.text ++ more.moreText))) =
      before.text ++ (replaced parameters arguments cs ++
        (behind.text ++ replaced parameters arguments more.moreText)) := by
  rw [replaced_blanks, replaced_append _ _ (head?_blanks_append behind (head?_moreText more)), replaced_blanks]

mutual

theorem replaced_text : ∀ t : TypeTerm, t.IsOver parameters →
    replaced parameters arguments t.text = (t.subst (bindings parameters arguments)).text
  | .apply head .nil, _ => by
    rw [TypeTerm.text, TypeArguments.text, List.append_nil, replaced_name, TypeTerm.subst]
    cases bindings parameters arguments (String.ofList head.text) with
    | none => simp [TypeTerm.text, TypeArguments.text]
    | some t => rfl
  | .apply head (.cons before first behind more), isOver => by
    obtain ⟨free, overFirst, overMore⟩ := isOver
    rw [TypeTerm.text, replaced_append _ _ (head?_text_arguments _), replaced_name,
      bindings_eq_none parameters arguments free, TypeArguments.text, replaced_cons_mark _ _ (by decide),
      replaced_argument, replaced_text first overFirst, replaced_moreText more overMore]
    rfl
  | .nullable t, isOver => by
    rw [TypeTerm.text, replaced_append _ _ (head?_mark (by decide) []), replaced_text t isOver]
    rfl
  | .array element, isOver => by
    rw [TypeTerm.text, replaced_append _ _ (head?_mark (by decide) [']']), replaced_text element isOver]
    rfl

theorem replaced_moreText : ∀ more : TypeArguments, more.IsOver parameters →
    replaced parameters arguments more.moreText = (more.subst (bindings parameters arguments)).moreText
  | .nil, _ => by
    rw [TypeArguments.moreText, replaced_cons_mark _ _ (by decide)]
    rfl
  | .cons before next behind more, isOver => by
    obtain ⟨overNext, overMore⟩ := isOver
    rw [TypeArguments.moreText, replaced_cons_mark _ _ (by decide), replaced_argument,
      replaced_text next overNext, replaced_moreText more overMore]
    rfl

end

/-- Replacing the parameters in the text of a type replaces them in the type. -/
theorem substitute_typeName (t : TypeTerm) (isOver : t.IsOver parameters) :
    t.typeName.substitute parameters (arguments.map (·.typeName)) =
      (t.subst (bindings parameters arguments)).typeName := by
  have whole := replaced_text parameters arguments t isOver
  simp only [TypeTerm.typeName, TypeName.substitute, String.toList_ofList, ← whole]
  rfl

end Substitution

section Reading

/-- The list of arguments is read over a text as if it were one character of an argument. -/
def PassesOver (depth : Nat) (cs : List Char) : Prop :=
  ∀ current rest, argumentTexts depth current (cs ++ rest) = argumentTexts depth (cs.reverse ++ current) rest

theorem PassesOver.append {depth : Nat} {a b : List Char} (first : PassesOver depth a) (second : PassesOver depth b) :
    PassesOver depth (a ++ b) := by
  intro current rest
  rw [List.append_assoc, first, second, List.reverse_append, List.append_assoc]

theorem passesOver_marks {depth : Nat} {cs : List Char} (plain : ∀ c ∈ cs, c ≠ '<' ∧ c ≠ '>')
    (separators : ',' ∈ cs → depth ≠ 1) : PassesOver depth cs := by
  intro current rest
  induction cs generalizing current with
  | nil => rfl
  | cons c cs ih =>
    obtain ⟨noOpening, noClosing⟩ := plain c List.mem_cons_self
    have notSeparator : ¬ (c = ',' ∧ depth = 1) := fun here => separators (here.1 ▸ List.mem_cons_self) here.2
    rw [List.cons_append, argumentTexts, if_neg noOpening, if_neg noClosing, if_neg notSeparator,
      ih (fun x member => plain x (List.mem_cons_of_mem _ member))
        (fun member => separators (List.mem_cons_of_mem _ member)), List.reverse_cons, List.append_assoc]
    rfl

theorem passesOver_plain (depth : Nat) {cs : List Char} (plain : ∀ c ∈ cs, c ≠ '<' ∧ c ≠ '>' ∧ c ≠ ',') :
    PassesOver depth cs :=
  passesOver_marks (fun c member => ⟨(plain c member).1, (plain c member).2.1⟩)
    fun member => absurd rfl (plain ',' member).2.2

theorem DottedName.passesOver (name : DottedName) (depth : Nat) : PassesOver depth name.text :=
  passesOver_plain depth fun _ member =>
    ⟨name.ne member (by decide), name.ne member (by decide), name.ne member (by decide)⟩

theorem Blanks.passesOver (blanks : Blanks) (depth : Nat) : PassesOver depth blanks.text := by
  refine passesOver_plain depth fun c member => ?_
  have blank := blanks.blank c member
  refine ⟨?_, ?_, ?_⟩ <;> (rintro rfl; exact absurd blank (by decide))

mutual

theorem TypeTerm.passesOver : ∀ (t : TypeTerm) {depth : Nat}, 0 < depth → PassesOver depth t.text
  | .apply head arguments, depth, inside => by
    rw [TypeTerm.text]
    exact (head.passesOver depth).append (arguments.passesOver inside)
  | .nullable t, depth, inside => by
    rw [TypeTerm.text]
    exact (t.passesOver inside).append (passesOver_plain depth (by simp))
  | .array element, depth, inside => by
    rw [TypeTerm.text]
    exact (element.passesOver inside).append (passesOver_plain depth (by simp))

theorem TypeArguments.passesOver : ∀ (as : TypeArguments) {depth : Nat}, 0 < depth → PassesOver depth as.text
  | .nil, _, _ => fun _ _ => rfl
  | .cons before first behind more, depth, inside => by
    intro current rest
    rw [TypeArguments.text, List.cons_append, argumentTexts, if_pos rfl, List.append_assoc, List.append_assoc,
      List.append_assoc, before.passesOver, first.passesOver (Nat.succ_pos depth), behind.passesOver,
      more.closes inside]
    simp

/-- The rest of an inner list, at whose end the reading is back in the outer one. -/
theorem TypeArguments.closes : ∀ (more : TypeArguments) {depth : Nat}, 0 < depth → ∀ current rest,
    argumentTexts (depth + 1) current (more.moreText ++ rest) =
      argumentTexts depth (more.moreText.reverse ++ current) rest
  | .nil, depth, inside, current, rest => by
    rw [TypeArguments.moreText, List.singleton_append, argumentTexts, if_neg (by decide), if_pos rfl,
      if_neg (by omega)]
    rfl
  | .cons before next behind more, depth, inside, current, rest => by
    rw [TypeArguments.moreText, List.cons_append, argumentTexts, if_neg (by decide), if_neg (by decide),
      if_neg (by omega), List.append_assoc, List.append_assoc, List.append_assoc, before.passesOver,
      next.passesOver (Nat.succ_pos depth), behind.passesOver, more.closes inside]
    simp

end

/-- The texts between the separators of a list. -/
def TypeArguments.chunks : TypeArguments → List (List Char)
  | .nil => []
  | .cons before first behind more => (before.text ++ (first.text ++ behind.text)) :: more.chunks

theorem argumentTexts_moreText : ∀ (more : TypeArguments) (current : List Char),
    argumentTexts 1 current more.moreText = current.reverse :: more.chunks
  | .nil, current => rfl
  | .cons before next behind more, current => by
    rw [TypeArguments.moreText, argumentTexts, if_neg (by decide), if_neg (by decide), if_pos ⟨rfl, rfl⟩,
      before.passesOver, next.passesOver Nat.one_pos, behind.passesOver, argumentTexts_moreText more]
    simp [TypeArguments.chunks]

/-- A text that neither begins nor ends with a blank. -/
structure IsTrimmed (cs : List Char) : Prop where
  nonempty : cs ≠ []
  first : ∀ c, cs.head? = some c → isBlank c = false
  last : ∀ c, cs.getLast? = some c → isBlank c = false

/-- Trimming takes away exactly the blanks around a text. -/
theorem trim_append {before core behind : List Char} (blankBefore : ∀ c ∈ before, isBlank c = true)
    (trimmed : IsTrimmed core) (blankBehind : ∀ c ∈ behind, isBlank c = true) :
    trim (before ++ (core ++ behind)) = core := by
  have start : trimStart (core ++ behind) = core ++ behind := by
    obtain ⟨x, xs, rfl⟩ := List.exists_cons_of_ne_nil trimmed.nonempty
    exact trimStart_eq fun c first => trimmed.first c first
  have stop : trimStart core.reverse = core.reverse :=
    trimStart_eq fun c first => trimmed.last c (by rwa [List.head?_reverse] at first)
  have reversed : ∀ c ∈ behind.reverse, isBlank c = true := fun c member => blankBehind c (List.mem_reverse.mp member)
  rw [trim, trimStart_append blankBefore, start, trimEnd, List.reverse_append]
  rw [trimStart] at stop
  rw [List.dropWhile_append_of_pos reversed, stop, List.reverse_reverse]

theorem IsTrimmed.trim_eq {cs : List Char} (trimmed : IsTrimmed cs) : trim cs = cs := by
  have whole : trim ([] ++ (cs ++ [])) = cs := trim_append (by simp) trimmed (by simp)
  rwa [List.nil_append, List.append_nil] at whole

theorem DottedName.isTrimmed (name : DottedName) : IsTrimmed name.text where
  nonempty := name.nonempty
  first c first := not_isBlank_of_isNameChar (name.named c (List.mem_of_mem_head? first))
  last c last := not_isBlank_of_isNameChar (name.named c (List.mem_of_mem_getLast? last))

theorem IsTrimmed.append {a b : List Char} (trimmed : IsTrimmed a)
    (last : ∀ c, b.getLast? = some c → isBlank c = false) : IsTrimmed (a ++ b) where
  nonempty := List.append_ne_nil_of_left_ne_nil trimmed.nonempty b
  first c first := by
    obtain ⟨x, xs, rfl⟩ := List.exists_cons_of_ne_nil trimmed.nonempty
    exact trimmed.first c first
  last c here := by
    cases tail : b.getLast? with
    | none =>
      rw [List.getLast?_append, tail] at here
      exact trimmed.last c here
    | some d =>
      rw [List.getLast?_append, tail] at here
      exact Option.some.inj here ▸ last d tail

theorem IsTrimmed.append_left {front core : List Char} (trimmed : IsTrimmed core)
    (first : ∀ c, front.head? = some c → isBlank c = false) : IsTrimmed (front ++ core) where
  nonempty := List.append_ne_nil_of_right_ne_nil front trimmed.nonempty
  first c begins := by
    cases front with
    | nil => exact trimmed.first c begins
    | cons d front => exact first c begins
  last c ends := by
    obtain ⟨d, here⟩ := Option.ne_none_iff_exists'.mp (mt List.getLast?_eq_none_iff.mp trimmed.nonempty)
    rw [List.getLast?_append, here] at ends
    exact Option.some.inj ends ▸ trimmed.last d here

theorem TypeArguments.getLast?_moreText : ∀ more : TypeArguments, more.moreText.getLast? = some '>'
  | .nil => rfl
  | .cons before next behind more => by
    rw [TypeArguments.moreText, List.getLast?_cons, List.getLast?_append, List.getLast?_append, List.getLast?_append,
      more.getLast?_moreText]
    rfl

theorem TypeArguments.getLast?_text {as : TypeArguments} {c : Char} (last : as.text.getLast? = some c) : c = '>' := by
  cases as with
  | nil => simp [TypeArguments.text] at last
  | cons before first behind more =>
    rw [TypeArguments.text, List.getLast?_cons, List.getLast?_append, List.getLast?_append, List.getLast?_append,
      more.getLast?_moreText] at last
    exact (Option.some.inj last).symm

theorem TypeTerm.isTrimmed : ∀ t : TypeTerm, IsTrimmed t.text
  | .apply head arguments => by
    rw [TypeTerm.text]
    refine head.isTrimmed.append fun c last => ?_
    rw [TypeArguments.getLast?_text last]
    decide
  | .nullable t => by
    rw [TypeTerm.text]
    exact t.isTrimmed.append (by simp [isBlank])
  | .array element => by
    rw [TypeTerm.text]
    exact element.isTrimmed.append (by simp [isBlank])

theorem TypeArguments.map_trim_chunks : ∀ as : TypeArguments, as.chunks.map trim = as.terms.map (·.text)
  | .nil => rfl
  | .cons before first behind more => by
    rw [TypeArguments.chunks, TypeArguments.terms, List.map_cons, List.map_cons, more.map_trim_chunks,
      trim_append before.blank first.isTrimmed behind.blank]

/-- A class applied to arguments, as it is written. -/
def applied (head : DottedName) (arguments : TypeArguments) : TypeName := (TypeTerm.apply head arguments).typeName

/-- The arguments are read off the text. -/
theorem arguments_applied (head : DottedName) (as : TypeArguments) :
    (applied head as).arguments = as.terms.map (·.typeName) := by
  have noBracket : ∀ c ∈ head.text, (c == '<') = false := fun c member =>
    beq_eq_false_iff_ne.mpr (head.ne member (by decide))
  rw [applied, TypeTerm.typeName, TypeName.arguments, String.toList_ofList, TypeTerm.text]
  cases as with
  | nil =>
    rw [TypeArguments.text, List.append_nil, breakFirst_eq_none noBracket]
    rfl
  | cons before first behind more =>
    have chunks := TypeArguments.map_trim_chunks (.cons before first behind more)
    have nonempty : ∀ cs ∈ (TypeArguments.cons before first behind more).terms.map (·.text),
        (!cs.isEmpty) = true := by
      intro cs member
      obtain ⟨t, -, rfl⟩ := List.mem_map.mp member
      simpa using t.isTrimmed.nonempty
    have read : argumentTexts 1 [] (before.text ++ (first.text ++ (behind.text ++ more.moreText))) =
        (TypeArguments.cons before first behind more).chunks := by
      rw [before.passesOver, first.passesOver Nat.one_pos, behind.passesOver, argumentTexts_moreText]
      simp [TypeArguments.chunks]
    rw [TypeArguments.text, breakFirst_append noBracket (by decide)]
    simp only [read, chunks, List.filter_eq_self.mpr nonempty, List.map_map]
    rfl

/-- A name with or without arguments is no array. -/
theorem arrayElement?_applied (head : DottedName) (as : TypeArguments) : (applied head as).arrayElement? = none := by
  have last : (head.text ++ as.text).getLast? ≠ some ']' := by
    intro bracket
    rw [List.getLast?_append] at bracket
    cases tail : as.text.getLast? with
    | none =>
      rw [tail] at bracket
      exact head.ne (List.mem_of_mem_getLast? bracket) (by decide) rfl
    | some c =>
      rw [tail, TypeArguments.getLast?_text tail] at bracket
      exact absurd (Option.some.inj bracket) (by decide)
  have noArray : (applied head as).isArray = false := by
    rw [applied, TypeTerm.typeName, TypeName.isArray, String.toList_ofList, TypeTerm.text]
    exact beq_eq_false_iff_ne.mpr last
  rw [TypeName.arrayElement?, noArray]
  rfl

/-- The base of a name is the name, whatever nullable markers, arguments or ranks stand behind it; a word of the
language stands for its type. -/
theorem canonicalBase_text {name markers rest : List Char} (trimmed : IsTrimmed name)
    (unmarked : ∀ c ∈ name, c ≠ '<' ∧ c ≠ '[' ∧ c ≠ '?') (nullable : ∀ c ∈ markers, c = '?')
    (behind : ∀ c ∈ rest.head?, c = '<' ∨ c = '[') :
    canonicalBase ⟨String.ofList (name ++ markers ++ rest)⟩ =
      (keywordAlias? (String.ofList name)).getD (String.ofList name) := by
  have noAngle : ∀ c ∈ name ++ markers, decide (c ≠ '<') = true := by
    intro c member
    rcases List.mem_append.mp member with inName | inMarkers
    · exact decide_eq_true (unmarked c inName).1
    · exact decide_eq_true (by simp [nullable c inMarkers])
  have noSquare : ∀ c ∈ name ++ markers, decide (c ≠ '[') = true := by
    intro c member
    rcases List.mem_append.mp member with inName | inMarkers
    · exact decide_eq_true (unmarked c inName).2.1
    · exact decide_eq_true (by simp [nullable c inMarkers])
  have cut : ((name ++ markers ++ rest).takeWhile (· ≠ '<')).takeWhile (· ≠ '[') = name ++ markers := by
    rw [List.takeWhile_append_of_pos noAngle, List.takeWhile_append_of_pos noSquare]
    cases rest with
    | nil => simp
    | cons c rest => rcases behind c rfl with rfl | rfl <;> simp
  have whole : trim (name ++ markers) = name ++ markers :=
    (trimmed.append fun c last => by rw [nullable c (List.mem_of_mem_getLast? last)]; decide).trim_eq
  have noMarker : name.reverse.dropWhile (· == '?') = name.reverse := by
    cases reversed : name.reverse with
    | nil => rfl
    | cons c cs =>
      have member : c ∈ name := List.mem_reverse.mp (by simp [reversed])
      exact List.dropWhile_cons_of_neg (by simpa using (unmarked c member).2.2)
  have markersOnly : ∀ c ∈ markers.reverse, (c == '?') = true := fun c member =>
    beq_iff_eq.mpr (nullable c (List.mem_reverse.mp member))
  rw [canonicalBase, String.toList_ofList]
  simp only [cut, whole, List.reverse_append, List.dropWhile_append_of_pos markersOnly, noMarker,
    List.reverse_reverse, trimmed.trim_eq]

theorem canonicalBase_name {name : DottedName} (plain : keywordAlias? (String.ofList name.text) = none)
    {markers rest : List Char} (nullable : ∀ c ∈ markers, c = '?') (behind : ∀ c ∈ rest.head?, c = '<' ∨ c = '[') :
    canonicalBase ⟨String.ofList (name.text ++ markers ++ rest)⟩ = String.ofList name.text := by
  have unmarked : ∀ c ∈ name.text, c ≠ '<' ∧ c ≠ '[' ∧ c ≠ '?' := fun _ member =>
    ⟨name.ne member (by decide), name.ne member (by decide), name.ne member (by decide)⟩
  rw [canonicalBase_text name.isTrimmed unmarked nullable behind, plain, Option.getD_none]

/-- The base is read off the text, unless it is a word of the language. -/
theorem canonicalBase_applied {head : DottedName} (plain : keywordAlias? (String.ofList head.text) = none)
    (as : TypeArguments) : (applied head as).canonicalBase = String.ofList head.text := by
  have behind : ∀ c ∈ as.text.head?, c = '<' ∨ c = '[' := by
    cases as with
    | nil => simp [TypeArguments.text]
    | cons => simp [TypeArguments.text]
  have unmarked : ∀ c ∈ ([] : List Char), c = '?' := by simp
  have whole := canonicalBase_name plain unmarked behind
  rwa [List.append_nil] at whole

end Reading

end Typeahead
