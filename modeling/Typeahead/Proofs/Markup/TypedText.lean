import Typeahead.Markup.Completion
import Typeahead.Proofs.Text.Blanks
import Typeahead.Proofs.Text.Boundary

namespace Typeahead.Markup

open Text Lookup

/-- The text that is typed for a target in a style sheet. -/
def StyleTarget.typed : StyleTarget → List Char
  | .none => []
  | .property typed => typed.toList
  | .value _ typed => typed.toList

theorem StyleTarget.typed_suffix {body : List Char} {target : StyleTarget}
    (read : StyleTarget.ofDeclarations body = .ok target) : target.typed <:+ body := by
  have declared := lastField_suffix (· == ';') body
  unfold StyleTarget.ofDeclarations at read
  split at read
  · simp only [Except.ok.injEq] at read
    exact read ▸ List.nil_suffix
  · simp only at read
    split at read
    · simp only [Except.ok.injEq] at read
      subst read
      simp only [StyleTarget.typed, String.toList_ofList]
      exact (List.dropWhile_suffix _).trans declared
    · next name colon text found =>
      obtain ⟨word, cutOff, built⟩ := bind_eq_ok.mp read
      simp only [pure, Except.pure, Except.ok.injEq] at built
      subst built
      simp only [StyleTarget.typed, String.toList_ofList]
      exact (suffix_of_behindLast cutOff).trans ((suffix_of_breakFirst found).trans declared)

theorem StyleTarget.of_typed_suffix {before : List Char} {target : StyleTarget}
    (read : StyleTarget.of before = .ok target) : target.typed <:+ before := by
  unfold StyleTarget.of at read
  split at read
  · next found => exact (StyleTarget.typed_suffix read).trans (suffix_of_breakLast found)
  · simp only [Except.ok.injEq] at read
    exact read ▸ List.nil_suffix

theorem StyleTarget.lookAhead_suffix (target : StyleTarget) :
    target.respond.lookAhead.toList <:+ target.typed := by
  cases target with
  | none => exact List.nil_suffix
  | property typed => exact List.suffix_rfl
  | value name typed =>
    simp only [StyleTarget.respond]
    split
    · exact List.nil_suffix
    · exact List.suffix_rfl

theorem lookAhead_suffix_of_completeStyle {before : List Char} {response : Response}
    (answer : completeStyle before = .ok response) : response.lookAhead.toList <:+ before := by
  obtain ⟨target, read, rfl⟩ := map_eq_ok.mp answer
  exact target.lookAhead_suffix.trans (StyleTarget.of_typed_suffix read)

/-- The text that is typed for a target in markup. -/
def Target.typed : Target → List Char
  | .content => []
  | .tagName typed => typed.toList
  | .closingTag typed => typed.toList
  | .attributeName _ typed _ => typed.toList
  | .attributeValue _ _ typed => typed.toList

def Target.isClosingTag : Target → Bool
  | .closingTag _ => true
  | _ => false

theorem Target.ofValue_typed_suffix {tag : String} {attributes : List Char} {target : Target}
    (read : Target.ofValue tag attributes = .ok target) :
    target.typed <:+ attributes ∧ target.isClosingTag = false := by
  unfold Target.ofValue at read
  split at read
  · simp only [Except.ok.injEq] at read
    exact read ▸ ⟨List.nil_suffix, rfl⟩
  · next before quote typed found =>
    split at read
    · next name _ =>
      obtain ⟨word, -, built⟩ := bind_eq_ok.mp read
      simp only [pure, Except.pure, Except.ok.injEq] at built
      subst built
      simp only [Target.typed, String.toList_ofList]
      exact ⟨suffix_of_breakLast found, rfl⟩
    · simp only [Except.ok.injEq] at read
      exact read ▸ ⟨List.nil_suffix, rfl⟩

theorem Target.ofAttributes_typed_suffix {tag : String} {attributes : List Char} {target : Target}
    (read : Target.ofAttributes tag attributes = .ok target) :
    target.typed <:+ attributes ∧ target.isClosingTag = false := by
  obtain ⟨typed, cutOff, built⟩ := bind_eq_ok.mp read
  split at built
  · simp only [pure, Except.pure, Except.ok.injEq] at built
    exact built ▸ ⟨List.nil_suffix, rfl⟩
  · simp only [pure, Except.pure, Except.ok.injEq] at built
    subst built
    simp only [Target.typed, String.toList_ofList]
    exact ⟨suffix_of_behindLast cutOff, rfl⟩

theorem Target.ofOpenTag_typed_suffix {fragment : List Char} {target : Target}
    (read : Target.ofOpenTag fragment = .ok target) :
    target.typed <:+ fragment ∧ target.isClosingTag = false := by
  have behind : fragment.dropWhile (!isBlank ·) <:+ fragment := List.dropWhile_suffix _
  unfold Target.ofOpenTag at read
  simp only at read
  split at read
  · simp only [Except.ok.injEq] at read
    subst read
    simp only [Target.typed, String.toList_ofList]
    exact ⟨List.suffix_rfl, rfl⟩
  · split at read
    · obtain ⟨typed, opening⟩ := Target.ofValue_typed_suffix read
      exact ⟨typed.trans behind, opening⟩
    · obtain ⟨typed, opening⟩ := Target.ofAttributes_typed_suffix read
      exact ⟨typed.trans behind, opening⟩

/-- What is typed ends the text, or it is the trimmed end of the text behind the slash of a closing tag. -/
theorem Target.of_typed {before : List Char} {target : Target} (read : Target.of before = .ok target) :
    (target.typed <:+ before ∧ target.isClosingTag = false) ∨
      ∃ rest, rest <:+ before ∧ target = .closingTag (String.ofList (trim rest)) := by
  have content : Except.ok Target.content = Except.ok (ε := CutError) target →
      target.typed <:+ before ∧ target.isClosingTag = false := by
    intro same
    simp only [Except.ok.injEq] at same
    exact same ▸ ⟨List.nil_suffix, rfl⟩
  unfold Target.of at read
  split at read
  · exact .inl (content read)
  · split at read
    · exact .inl (content read)
    · next fragment found =>
      have last := suffix_of_breakLast found
      unfold Target.ofFragment at read
      split at read
      · exact .inl (content read)
      · split at read
        · simp only [Except.ok.injEq] at read
          exact read ▸ .inl ⟨List.nil_suffix, rfl⟩
        · next first rest _ =>
          split at read
          · exact .inl (content read)
          · split at read
            · simp only [Except.ok.injEq] at read
              exact .inr ⟨rest, (List.suffix_cons first rest).trans last, read.symm⟩
            · obtain ⟨typed, opening⟩ := Target.ofOpenTag_typed_suffix read
              exact .inl ⟨typed.trans last, opening⟩

/-- A trimmed end of a text is an end of it as it stands exactly when there was nothing to trim behind
it. -/
theorem trim_suffix_iff {rest before : List Char} (suffix : rest <:+ before) :
    trim rest <:+ before ↔ trim rest = [] ∨ before.getLast?.any isBlank = false := by
  constructor
  · rintro ⟨front, same⟩
    rcases List.eq_nil_or_concat (trim rest) with empty | ⟨start, c, split⟩
    · exact .inl empty
    · have last : (trimEnd (trimStart rest)).getLast? = some c := by
        change (trim rest).getLast? = some c
        simp [split]
      right
      rw [← same, split]
      simpa [← List.append_assoc] using getLast?_trimEnd last
  · rintro (empty | ends)
    · rw [empty]
      exact List.nil_suffix
    · have start : trimStart rest <:+ before := (List.dropWhile_suffix _).trans suffix
      suffices trim rest = trimStart rest from this ▸ start
      obtain ⟨front, whole⟩ := start
      refine trimEnd_eq fun c kept => ?_
      have last : before.getLast? = some c := by
        rw [← whole, List.getLast?_append, kept]
        rfl
      rw [last] at ends
      exact ends

theorem Dictionary.lookAhead_suffix {d : Dictionary} {before : List Char} {target : Target}
    {response : Response} (answer : d.respond before target = .ok response) :
    response.lookAhead.toList <:+ target.typed := by
  cases target with
  | content =>
    simp only [Dictionary.respond, Except.ok.injEq] at answer
    exact answer ▸ List.nil_suffix
  | tagName typed =>
    simp only [Dictionary.respond, Except.ok.injEq] at answer
    exact answer ▸ List.suffix_rfl
  | closingTag typed =>
    simp only [Dictionary.respond, Except.ok.injEq] at answer
    exact answer ▸ List.suffix_rfl
  | attributeName tag typed present =>
    simp only [Dictionary.respond, Except.ok.injEq] at answer
    exact answer ▸ List.suffix_rfl
  | attributeValue tag attr typed =>
    simp only [Dictionary.respond] at answer
    split at answer
    · obtain ⟨target, read, rfl⟩ := map_eq_ok.mp answer
      exact target.lookAhead_suffix.trans (StyleTarget.typed_suffix read)
    · simp only [Except.ok.injEq] at answer
      subst answer
      unfold Dictionary.valueItems
      split
      · exact List.nil_suffix
      · exact List.suffix_rfl

theorem suffix_of_openStyle? {before sheet : List Char} (opened : openStyle? before = some sheet) :
    sheet <:+ before := by
  unfold openStyle? at opened
  simp only at opened
  split at opened
  · simp at opened
  · split at opened
    · simp at opened
    · next earlier _ _ =>
      obtain ⟨⟨tag, bracket, later⟩, found, rfl⟩ := Option.map_eq_some_iff.mp opened
      exact (suffix_of_breakFirst found).trans (List.drop_suffix _ _)

/-- The text ends in blanks behind the name in a closing tag. -/
def BlanksBehindClosingTag (script : Option Script) (before : List Char) : Prop :=
  script.any (·.isOpen before) = false ∧ openStyle? before = none ∧
    ∃ name, Target.of before = .ok (.closingTag name) ∧ name ≠ "" ∧ before.getLast?.any isBlank = true

theorem lookAhead_suffix_iff_of_completeMarkup {script : Option Script} {source : List Char} {caret : Nat}
    {response : Response} (answer : completeMarkup script source caret = .ok response) :
    response.lookAhead.toList <:+ upTo caret source ↔
      ¬ BlanksBehindClosingTag script (upTo caret source) := by
  unfold completeMarkup at answer
  rw [cut_floorBoundary] at answer
  simp only [bind, Except.bind] at answer
  unfold BlanksBehindClosingTag
  generalize upTo caret source = before at answer
  by_cases inCode : script.any (·.isOpen before) = true
  · rw [if_pos inCode] at answer
    simp only [pure, Except.pure, Except.ok.injEq] at answer
    subst answer
    exact iff_of_true List.nil_suffix (by simp [inCode])
  · rw [if_neg inCode] at answer
    split at answer
    · next sheet opened =>
      have suffix := (lookAhead_suffix_of_completeStyle answer).trans (suffix_of_openStyle? opened)
      exact iff_of_true suffix (by simp [opened])
    · next closed =>
      cases read : Target.of before with
      | error e => simp [read] at answer
      | ok target =>
        simp only [read] at answer
        rcases Target.of_typed read with ⟨typed, opening⟩ | ⟨rest, behind, rfl⟩
        · refine iff_of_true ((Dictionary.lookAhead_suffix answer).trans typed) ?_
          rintro ⟨-, -, name, same, -⟩
          simp only [Except.ok.injEq] at same
          simp [same, Target.isClosingTag] at opening
        · simp only [Dictionary.respond, Except.ok.injEq] at answer
          have typed : response.lookAhead.toList = trim rest := by
            simp [← answer, Dictionary.closingTags]
          rw [typed, trim_suffix_iff behind]
          cases blanks : before.getLast?.any isBlank <;> simp [inCode, closed]

end Typeahead.Markup
