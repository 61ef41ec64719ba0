import Typeahead.Language
import Typeahead.Lookup.PathHelper
import Typeahead.Proofs.Markup.TypedText
import Typeahead.Proofs.Server.Snippets
import Typeahead.Proofs.Source.Blanking
import Typeahead.Proofs.Source.ExpressionSlices

namespace Typeahead

open Text Source Lookup Workspace Server

/-- The text before the caret in which a language reads what is typed: of code the blanked text, except
on a line with an option marker. -/
def Language.shownText (source before : List Char) : Language → List Char
  | .csharp => if (embeddedOption? before).isNone then blank source else source
  | _ => source

/-- What is typed at the end of a text does not reach its end. -/
def Language.DropsBlanks (before : List Char) : Language → Prop
  | .html => Markup.BlanksBehindClosingTag none before
  | .php => Markup.BlanksBehindClosingTag (some .php) before
  | .erb => Markup.BlanksBehindClosingTag (some .erb) before
  | .csharp | .css => False

theorem lookAhead_suffix_of_pathHelper (t : FileTree) (marker : Char) (typed : List Char) :
    (pathHelper t marker typed).lookAhead.toList <:+ typed := by
  have trimmed : trimStart typed <:+ typed := List.dropWhile_suffix _
  unfold pathHelper
  split
  · exact List.nil_suffix
  · simp only [String.toList_ofList]
    cases found : breakLast isPathSeparator (trimStart typed) with
    | none => exact trimmed
    | some parts =>
      obtain ⟨directory, separator, name⟩ := parts
      exact (suffix_of_breakLast found).trans trimmed

theorem lookAhead_ofOutcome (outcome : Outcome) (typed : String) :
    (Response.ofOutcome outcome typed).lookAhead = typed ∨
      (Response.ofOutcome outcome typed).lookAhead = "" := by
  unfold Response.ofOutcome
  split
  · exact .inl rfl
  · exact .inr rfl

/-- Where a text is typed: it ends `shown`, and it begins at a boundary of the source. -/
structure IsTypedIn (source shown lookAhead : List Char) : Prop where
  suffix : lookAhead <:+ shown
  startsAtBoundary : ∀ start, shown = start ++ lookAhead → IsBoundary (utf8Length start) source

theorem isTypedIn_nil {source shown : List Char} (boundary : IsBoundary (utf8Length shown) source) :
    IsTypedIn source shown [] := by
  refine ⟨List.nil_suffix, fun start split => ?_⟩
  rw [List.append_nil] at split
  rwa [split] at boundary

theorem isTypedIn_source {shown later lookAhead : List Char} (suffix : lookAhead <:+ shown) :
    IsTypedIn (shown ++ later) shown lookAhead := by
  refine ⟨suffix, fun start split => ?_⟩
  rw [split, List.append_assoc]
  exact isBoundary_append start _

theorem isTypedIn_target {source shown later : List Char} (parts : blank source = shown ++ later)
    (boundary : IsBoundary (utf8Length shown) source) :
    IsTypedIn source shown (Target.of shown).lookAhead.toList := by
  obtain ⟨front, whole, beside⟩ := Target.eq_append_lookAhead shown
  refine ⟨⟨front, whole.symm⟩, fun start split => ?_⟩
  have here : start = front := List.append_cancel_right (split.symm.trans whole)
  subst here
  cases typed : (Target.of shown).lookAhead.toList with
  | nil =>
    rw [typed, List.append_nil] at split
    rwa [split] at boundary
  | cons c rest =>
    rw [typed] at split beside
    refine isBoundary_of_blank (b := c :: rest ++ later) (by rw [parts, split]; simp) ?_
    rintro ⟨last, first⟩
    rcases beside with dot | code
    · simp [last] at dot
    · exact code first

theorem isTypedIn_lookupCode {tree : Option FileTree} {catalog : Catalog} {nonPublic : Bool}
    {before rest : List Char} {response : Response}
    (answer : lookupCode (tree.map pathHelper) catalog nonPublic (before ++ rest) (utf8Length before) =
      .ok response) :
    ∃ shown later, cut (utf8Length before) (Language.csharp.shownText (before ++ rest) before) =
        .ok (shown, later) ∧
      IsTypedIn (before ++ rest) shown response.lookAhead.toList := by
  have boundary := isBoundary_append before rest
  have caret : (Context.of (before ++ rest) (utf8Length before)).caret = utf8Length before :=
    boundary.floorBoundary
  obtain ⟨⟨shown, later⟩, parts⟩ := isBoundary_iff_cut.mp (isBoundary_blank boundary)
  have text : (Context.of (before ++ rest) (utf8Length before)).text = blank (before ++ rest) := rfl
  have source : (Context.of (before ++ rest) (utf8Length before)).source = before ++ rest := rfl
  unfold lookupCode at answer
  simp only [caret, text, source, cut_append, parts, bind, Except.bind, pure, Except.pure] at answer
  unfold Language.shownText
  cases option : embeddedOption? before with
  | some found =>
    obtain ⟨marker, typed⟩ := found
    simp only [option, Except.ok.injEq] at answer
    refine ⟨before, rest, by simp [cut_append], isTypedIn_source ?_⟩
    cases tree with
    | none => exact answer ▸ List.nil_suffix
    | some t =>
      subst answer
      exact (lookAhead_suffix_of_pathHelper t marker typed).trans (suffix_of_embeddedOption? option)
  | none =>
    refine ⟨shown, later, by simpa using parts, ?_⟩
    obtain ⟨whole, size⟩ := cut_eq_ok parts
    rw [← size] at boundary
    simp only [option] at answer
    split at answer
    · simp only [Except.ok.injEq] at answer
      exact answer ▸ isTypedIn_nil boundary
    · simp only [Except.ok.injEq] at answer
      subst answer
      unfold Scope.respond
      rcases lookAhead_ofOutcome _ (Target.of shown).lookAhead with same | empty
      · rw [same]
        exact isTypedIn_target whole boundary
      · rw [empty]
        exact isTypedIn_nil boundary

/-- In the other languages the typed text is read in the source. -/
theorem lookAhead_suffix_iff_of_complete {helper : Option EmbeddedHelper} {catalog : Catalog}
    {nonPublic : Bool} {before rest : List Char} {response : Response} {language : Language}
    (notCode : language ≠ .csharp)
    (answer : language.complete helper catalog nonPublic (before ++ rest) (utf8Length before) = .ok response) :
    response.lookAhead.toList <:+ before ↔ ¬ language.DropsBlanks before := by
  have markup {script : Option Markup.Script}
      (answer : Markup.completeMarkup script (before ++ rest) (utf8Length before) = .ok response) :
      response.lookAhead.toList <:+ before ↔ ¬ Markup.BlanksBehindClosingTag script before := by
    have exact := Markup.lookAhead_suffix_iff_of_completeMarkup answer
    rwa [upTo_append] at exact
  cases language with
  | csharp => exact absurd rfl notCode
  | html => exact markup answer
  | php => exact markup answer
  | erb => exact markup answer
  | css =>
    have within : min (utf8Length before) (utf8Length (before ++ rest)) = utf8Length before := by
      rw [utf8Length_append]
      omega
    simp only [Language.complete, Language.completeSheet, within, cut_append] at answer
    exact iff_of_true (Markup.lookAhead_suffix_of_completeStyle answer) (by simp [Language.DropsBlanks])

/-- The typed text of a response stands directly before the caret in the text that its language shows,
unless blanks are typed behind the name in a closing tag. Where it does, it begins at a boundary of the
document, and the entries of the list replace it and nothing else. -/
theorem Language.lookAhead_isReplaced {tree : Option FileTree} {catalog : Catalog} {nonPublic : Bool}
    {d : Document} {caret : Nat} {language : Language} {before rest : List Char} {response : Response}
    (boundary : cut caret d.text.toList = .ok (before, rest))
    (answer : language.complete (tree.map pathHelper) catalog nonPublic d.text.toList caret = .ok response) :
    ∃ shown later, cut caret (language.shownText d.text.toList before) = .ok (shown, later) ∧
      (response.lookAhead.toList <:+ shown ↔ ¬ language.DropsBlanks before) ∧
      ∀ start, shown = start ++ response.lookAhead.toList →
        IsBoundary (utf8Length start) d.text.toList ∧
        ∃ list, CompletionList.of d caret response = .ok list ∧ ∀ entry ∈ list.entries,
          entry.range = ⟨d.positionAt (utf8Length start), d.positionAt caret⟩ := by
  obtain ⟨list, built⟩ :=
    CompletionList.exists_of_haveCursors (Language.templates_haveCursors answer) d caret
  obtain ⟨whole, rfl⟩ := cut_eq_ok boundary
  rw [whole] at answer ⊢
  have ranges : ∀ {shown start : List Char}, utf8Length shown = utf8Length before →
      shown = start ++ response.lookAhead.toList →
      ∃ list, CompletionList.of d (utf8Length before) response = .ok list ∧ ∀ entry ∈ list.entries,
        entry.range = ⟨d.positionAt (utf8Length start), d.positionAt (utf8Length before)⟩ := by
    intro shown start size split
    have length := congrArg utf8Length split
    rw [size, utf8Length_append, utf8Length_toList] at length
    have starts : utf8Length before - response.lookAhead.utf8ByteSize = utf8Length start := by omega
    refine ⟨list, built, fun entry member => ?_⟩
    rw [CompletionList.range_of_mem built member, starts]
  by_cases code : language = .csharp
  · subst code
    obtain ⟨shown, later, parts, typed⟩ := isTypedIn_lookupCode answer
    refine ⟨shown, later, parts, iff_of_true typed.suffix (by simp [DropsBlanks]), fun start split => ?_⟩
    exact ⟨typed.startsAtBoundary start split, ranges (cut_eq_ok parts).2 split⟩
  · have shows : language.shownText (before ++ rest) before = before ++ rest := by
      cases language <;> first | rfl | exact absurd rfl code
    refine ⟨before, rest, by rw [shows, cut_append], lookAhead_suffix_iff_of_complete code answer, ?_⟩
    intro start split
    exact ⟨(isTypedIn_source ⟨start, split.symm⟩).startsAtBoundary start split, ranges rfl split⟩

def Language.closingTagPage : Document := ⟨"html", 0, "<u></u", 0⟩

def Language.closingTagResponse : Response :=
  { outcome := .resolved [{ Item.named "u" .tag "markup" with insertText := "u>" }], lookAhead := "u" }

theorem Language.lookAhead_isReplaced_closingTag :
    let d := closingTagPage
    let response := closingTagResponse
    cut 6 d.text.toList = .ok ("<u></u".toList, []) ∧
      Language.html.complete ((none : Option FileTree).map pathHelper) ⟨{}, []⟩ false d.text.toList 6 =
        .ok response ∧
      ∃ shown later, cut 6 (Language.html.shownText d.text.toList "<u></u".toList) = .ok (shown, later) ∧
        (response.lookAhead.toList <:+ shown ↔ ¬ Language.html.DropsBlanks "<u></u".toList) ∧
        ∀ start, shown = start ++ response.lookAhead.toList →
          IsBoundary (utf8Length start) d.text.toList ∧
          ∃ list, CompletionList.of d 6 response = .ok list ∧ ∀ entry ∈ list.entries,
            entry.range = ⟨d.positionAt (utf8Length start), d.positionAt 6⟩ := by
  intro d response
  have boundary : cut 6 d.text.toList = .ok ("<u></u".toList, []) := by decide +kernel
  have answer : Language.html.complete ((none : Option FileTree).map pathHelper) ⟨{}, []⟩ false
      d.text.toList 6 = .ok response := by decide +kernel
  exact ⟨boundary, answer, lookAhead_isReplaced boundary answer⟩

/-- With a blank behind the name, the text before the caret ends in the blank and not in the name, and
the entry replaces the last letter of the name and the blank. -/
theorem Language.lookAhead_blank_behind_closingTag :
    ∃ response, Language.html.complete none ⟨{}, []⟩ false "<b></b ".toList 7 = .ok response ∧
      response.outcome.isApplicable = true ∧ ¬ response.lookAhead.toList <:+ "<b></b ".toList := by
  refine ⟨{ outcome := .resolved [{ Item.named "b" .tag "markup" with insertText := "b>" }],
            lookAhead := "b" }, by decide +kernel, rfl, by decide⟩

end Typeahead
