import Typeahead.Language
import Typeahead.Proofs.Markup.TypedText

namespace Typeahead

open Text

namespace Markup

/-- If a text is read, then not up to a wide separator. -/
def ReadsNarrow (p : Char → Bool) (text? : Option (List Char)) : Prop :=
  ∀ text ∈ text?, ¬ EndsBehindWide p text

@[simp] theorem readsNarrow_none (p : Char → Bool) : ReadsNarrow p none := by simp [ReadsNarrow]

@[simp] theorem readsNarrow_some {p : Char → Bool} {text : List Char} :
    ReadsNarrow p (some text) ↔ ∃ word, behindLast p text = .ok word := by
  simp [ReadsNarrow, behindLast_isOk_iff]

theorem isOk_map {α β : Type} {f : α → β} {x : Except CutError α} :
    (∃ b, x.map f = .ok b) ↔ ∃ a, x = .ok a := by
  cases x <;> simp [Except.map]

theorem isOk_bind_ok {α β : Type} {f : α → β} {x : Except CutError α} :
    (∃ b, (x >>= fun a => .ok (f a)) = .ok b) ↔ ∃ a, x = .ok a := by
  cases x <;> simp [bind, Except.bind]

theorem lastWord_eq_behindLast (text : List Char) : lastWord text = behindLast isBlank text := rfl

/-- What parts the words of a value in a style sheet. -/
def isValueSeparator (c : Char) : Bool := isBlank c || c == ','

theorem lastValue_eq_behindLast (text : List Char) : lastValue text = behindLast isValueSeparator text := rfl

/-- The value that is being typed at the end of a list of declarations. -/
def StyleTarget.valueText? (body : List Char) : Option (List Char) :=
  if endsInQuotes body || opensLast "/*".toList "*/".toList body then .none
  else (breakFirst (· == ':') (lastField (· == ';') body)).map fun (_, _, text) => text

theorem StyleTarget.ofDeclarations_isOk_iff {body : List Char} :
    (∃ target, StyleTarget.ofDeclarations body = .ok target) ↔
      ReadsNarrow isValueSeparator (StyleTarget.valueText? body) := by
  unfold StyleTarget.ofDeclarations StyleTarget.valueText?
  by_cases closed : (endsInQuotes body || opensLast "/*".toList "*/".toList body) = true
  · simp only [if_pos closed, readsNarrow_none, Except.ok.injEq, exists_eq']
  · rw [if_neg closed, if_neg closed]
    cases declaration : breakFirst (· == ':') (lastField (· == ';') body) with
    | none => simp [declaration]
    | some parts =>
      obtain ⟨name, colon, text⟩ := parts
      simp only [declaration, Option.map_some, readsNarrow_some, ← lastValue_eq_behindLast]
      exact isOk_bind_ok

/-- The value that is being typed at the end of a style sheet. -/
def StyleTarget.sheetValueText? (before : List Char) : Option (List Char) :=
  match breakLast (fun c => c == '{' || c == '}') before with
  | some (_, '{', body) => StyleTarget.valueText? body
  | _ => .none

theorem completeStyle_isOk_iff {before : List Char} :
    (∃ response, completeStyle before = .ok response) ↔
      ReadsNarrow isValueSeparator (StyleTarget.sheetValueText? before) := by
  unfold completeStyle StyleTarget.of StyleTarget.sheetValueText?
  rw [isOk_map]
  cases breakLast (fun c => c == '{' || c == '}') before with
  | none => simp
  | some parts =>
    obtain ⟨selector, brace, body⟩ := parts
    by_cases opens : brace = '{'
    · subst opens
      exact StyleTarget.ofDeclarations_isOk_iff
    · simp [opens]

/-- The text in front of the equals sign of a quoted value, `attributes` being the open tag from its
first blank on. -/
def Target.nameText? (attributes : List Char) : Option (List Char) :=
  match breakLast (· == '"') attributes with
  | none => none
  | some (before, _, _) =>
    match (trimEnd before).reverse with
    | '=' :: name => some (trimEnd name.reverse)
    | _ => none

theorem Target.ofValue_isOk_iff {tag : String} {attributes : List Char} :
    (∃ target, Target.ofValue tag attributes = .ok target) ↔
      ReadsNarrow isBlank (Target.nameText? attributes) := by
  unfold Target.ofValue Target.nameText?
  cases breakLast (· == '"') attributes with
  | none => simp
  | some parts =>
    obtain ⟨before, quote, typed⟩ := parts
    simp only
    cases (trimEnd before).reverse with
    | nil => simp
    | cons c name =>
      by_cases equals : c = '='
      · subst equals
        simp only [readsNarrow_some, ← lastWord_eq_behindLast]
        exact isOk_bind_ok
      · simp [equals]

theorem Target.ofAttributes_isOk_iff {tag : String} {attributes : List Char} :
    (∃ target, Target.ofAttributes tag attributes = .ok target) ↔ ReadsNarrow isBlank (some attributes) := by
  rw [readsNarrow_some, ← lastWord_eq_behindLast]
  unfold Target.ofAttributes
  cases lastWord attributes with
  | error e => simp [bind, Except.bind]
  | ok typed =>
    simp only [bind, Except.bind, pure, Except.pure, Except.ok.injEq, exists_eq', iff_true]
    split <;> simp

/-- The text whose last word is the name of an attribute, in an open tag given from its angle bracket
on: the attributes behind the tag's name, or what stands before a quoted value. -/
def Target.openTagText? (fragment : List Char) : Option (List Char) :=
  match fragment.dropWhile (!isBlank ·) with
  | [] => none
  | attributes => if endsInQuotes fragment then Target.nameText? attributes else some attributes

theorem Target.ofOpenTag_isOk_iff {fragment : List Char} :
    (∃ target, Target.ofOpenTag fragment = .ok target) ↔
      ReadsNarrow isBlank (Target.openTagText? fragment) := by
  unfold Target.ofOpenTag Target.openTagText?
  cases fragment.dropWhile (!isBlank ·) with
  | nil => simp
  | cons blank rest =>
    by_cases quoted : endsInQuotes fragment = true
    · simp only [if_pos quoted]
      exact Target.ofValue_isOk_iff
    · simp only [if_neg quoted]
      exact Target.ofAttributes_isOk_iff

/-- The same at the end of a text that is not in a comment, given what follows its last angle bracket
that opens. -/
def Target.fragmentText? (fragment : List Char) : Option (List Char) :=
  if !endsInQuotes fragment && fragment.contains '>' then none
  else
    match fragment with
    | [] => none
    | first :: rest =>
      if isDeclarationStart first || first == '/' then none else Target.openTagText? (first :: rest)

theorem Target.ofFragment_isOk_iff {fragment : List Char} :
    (∃ target, Target.ofFragment fragment = .ok target) ↔
      ReadsNarrow isBlank (Target.fragmentText? fragment) := by
  unfold Target.ofFragment Target.fragmentText?
  by_cases closed : (!endsInQuotes fragment && fragment.contains '>') = true
  · simp only [if_pos closed, readsNarrow_none, Except.ok.injEq, exists_eq']
  · rw [if_neg closed, if_neg closed]
    cases fragment with
    | nil => simp
    | cons first rest =>
      by_cases declared : isDeclarationStart first = true
      · simp [declared]
      · by_cases closing : first = '/'
        · simp only [if_neg declared, if_pos closing, Except.ok.injEq, exists_eq', true_iff]
          simp [closing]
        · have named : ¬ (isDeclarationStart first || first == '/') = true := by simp [declared, closing]
          simp only [if_neg declared, if_neg closing, if_neg named]
          exact Target.ofOpenTag_isOk_iff

/-- The text whose last word is the name of an attribute that is typed at the end of a text, or whose
value is. -/
def Target.attributeText? (before : List Char) : Option (List Char) :=
  if opensLast "<!--".toList "-->".toList before then none
  else (breakLast (· == '<') before).bind fun (_, _, fragment) => Target.fragmentText? fragment

theorem Target.of_isOk_iff {before : List Char} :
    (∃ target, Target.of before = .ok target) ↔ ReadsNarrow isBlank (Target.attributeText? before) := by
  unfold Target.of Target.attributeText?
  by_cases comment : opensLast "<!--".toList "-->".toList before = true
  · simp only [if_pos comment, readsNarrow_none, Except.ok.injEq, exists_eq']
  · rw [if_neg comment, if_neg comment]
    cases breakLast (· == '<') before with
    | none => simp
    | some parts =>
      obtain ⟨earlier, bracket, fragment⟩ := parts
      exact Target.ofFragment_isOk_iff

/-- The value that is being typed in a `style` attribute. -/
def Target.styleText? : Target → Option (List Char)
  | .attributeValue _ attr typed =>
    if equalIgnoringCase attr.toList "style".toList then StyleTarget.valueText? typed.toList else none
  | _ => none

theorem Dictionary.respond_isOk_iff {d : Dictionary} {before : List Char} {target : Target} :
    (∃ response, d.respond before target = .ok response) ↔
      ReadsNarrow isValueSeparator target.styleText? := by
  unfold Dictionary.respond Target.styleText?
  cases target with
  | content => simp
  | tagName => simp
  | closingTag => simp
  | attributeName => simp
  | attributeValue tag attr typed =>
    by_cases style : equalIgnoringCase attr.toList "style".toList = true
    · simp only [if_pos style, isOk_map]
      exact StyleTarget.ofDeclarations_isOk_iff
    · simp only [if_neg style, readsNarrow_none, Except.ok.injEq, exists_eq']

/-- What completion in markup reads at the end of a text stands behind narrow separators only. In a style
sheet that is open there it reads a value; elsewhere it reads the name of an attribute and, in a `style`
attribute, a value. Inside code it reads nothing. -/
def WordsReadNarrow (script : Option Script) (before : List Char) : Prop :=
  script.any (·.isOpen before) = false →
    match openStyle? before with
    | some sheet => ReadsNarrow isValueSeparator (StyleTarget.sheetValueText? sheet)
    | none => ReadsNarrow isBlank (Target.attributeText? before) ∧
        ∀ target, Target.of before = .ok target → ReadsNarrow isValueSeparator target.styleText?

theorem completeMarkup_isOk_iff {script : Option Script} {source : List Char} {caret : Nat} :
    (∃ response, completeMarkup script source caret = .ok response) ↔
      WordsReadNarrow script (upTo caret source) := by
  unfold completeMarkup WordsReadNarrow
  rw [cut_floorBoundary]
  simp only [bind, Except.bind]
  by_cases inCode : script.any (·.isOpen (upTo caret source)) = true
  · simp [inCode, pure, Except.pure]
  · simp only [Bool.not_eq_true _ ▸ inCode, true_implies]
    cases openStyle? (upTo caret source) with
    | some sheet => exact completeStyle_isOk_iff
    | none =>
      simp only
      rw [← Target.of_isOk_iff]
      cases read : Target.of (upTo caret source) with
      | error e => simp
      | ok target =>
        simp only [Except.ok.injEq, exists_eq', true_and, forall_eq']
        exact Dictionary.respond_isOk_iff

theorem StyleTarget.suffix_of_valueText? {body text : List Char}
    (reads : StyleTarget.valueText? body = some text) : text <:+ body := by
  unfold StyleTarget.valueText? at reads
  split at reads
  · simp at reads
  · obtain ⟨⟨name, colon, value⟩, found, rfl⟩ := Option.map_eq_some_iff.mp reads
    exact (suffix_of_breakFirst found).trans (lastField_suffix _ body)

theorem StyleTarget.suffix_of_sheetValueText? {before text : List Char}
    (reads : StyleTarget.sheetValueText? before = some text) : text <:+ before := by
  unfold StyleTarget.sheetValueText? at reads
  split at reads
  · next found => exact (StyleTarget.suffix_of_valueText? reads).trans (suffix_of_breakLast found)
  · simp at reads

theorem Target.subset_of_nameText? {attributes text : List Char}
    (reads : Target.nameText? attributes = some text) : text ⊆ attributes := by
  unfold Target.nameText? at reads
  split at reads
  · simp at reads
  · next before quote typed found =>
    split at reads
    · next name equals =>
      simp only [Option.some.injEq] at reads
      intro c inside
      have inName : c ∈ name.reverse := (prefix_trimEnd _).subset (reads ▸ inside)
      have inTrimmed : c ∈ (trimEnd before).reverse := by
        rw [equals]
        exact List.mem_cons_of_mem _ (List.mem_reverse.mp inName)
      have inBefore : c ∈ before := (prefix_trimEnd _).subset (List.mem_reverse.mp inTrimmed)
      rw [(eq_append_of_breakLast found).1]
      exact List.mem_append_left _ inBefore
    · simp at reads

theorem Target.subset_of_openTagText? {fragment text : List Char}
    (reads : Target.openTagText? fragment = some text) : text ⊆ fragment := by
  have behind : fragment.dropWhile (!isBlank ·) ⊆ fragment := (List.dropWhile_suffix _).subset
  unfold Target.openTagText? at reads
  split at reads
  · simp at reads
  · split at reads
    · exact List.Subset.trans (Target.subset_of_nameText? reads) behind
    · simp only [Option.some.injEq] at reads
      exact reads ▸ behind

theorem Target.subset_of_attributeText? {before text : List Char}
    (reads : Target.attributeText? before = some text) : text ⊆ before := by
  unfold Target.attributeText? at reads
  split at reads
  · simp at reads
  · obtain ⟨⟨earlier, bracket, fragment⟩, found, inFragment⟩ := Option.bind_eq_some_iff.mp reads
    have last : fragment ⊆ before := (suffix_of_breakLast found).subset
    simp only [Target.fragmentText?] at inFragment
    split at inFragment
    · simp at inFragment
    · split at inFragment
      · simp at inFragment
      · split at inFragment
        · simp at inFragment
        · exact List.Subset.trans (Target.subset_of_openTagText? inFragment) last

theorem Target.subset_of_styleText? {before text : List Char} {target : Target}
    (read : Target.of before = .ok target) (reads : target.styleText? = some text) : text ⊆ before := by
  cases target with
  | attributeValue tag attr typed =>
    rcases Target.of_typed read with ⟨suffix, -⟩ | ⟨rest, -, closing⟩
    · simp only [Target.styleText?] at reads
      split at reads
      · exact ((StyleTarget.suffix_of_valueText? reads).trans suffix).subset
      · simp at reads
    · simp at closing
  | content => simp [Target.styleText?] at reads
  | tagName => simp [Target.styleText?] at reads
  | closingTag => simp [Target.styleText?] at reads
  | attributeName => simp [Target.styleText?] at reads

/-- Every blank of the text takes one byte. -/
def BlanksAreNarrow (text : List Char) : Prop := ∀ c ∈ text, isBlank c = true → c.utf8Size = 1

theorem BlanksAreNarrow.readsNarrow {before : List Char} {text? : Option (List Char)}
    (narrow : BlanksAreNarrow before) (inside : ∀ text, text? = some text → text ⊆ before) :
    ReadsNarrow isBlank text? ∧ ReadsNarrow isValueSeparator text? := by
  have blanks : ∀ text, text? = some text → ∀ c ∈ text, isBlank c = true → c.utf8Size = 1 :=
    fun text reads c here => narrow c (inside text reads here)
  refine ⟨fun text reads => not_endsBehindWide (blanks text reads), fun text reads => ?_⟩
  refine not_endsBehindWide fun c here separates => ?_
  rcases Bool.or_eq_true_iff.mp separates with blank | comma
  · exact blanks text reads c here blank
  · have : c = ',' := by simpa using comma
    subst this
    rfl

theorem wordsReadNarrow_of_blanksAreNarrow {before : List Char} (narrow : BlanksAreNarrow before)
    (script : Option Script) : WordsReadNarrow script before := by
  intro _
  cases opened : openStyle? before with
  | some sheet =>
    refine (narrow.readsNarrow fun text reads => ?_).2
    exact ((StyleTarget.suffix_of_sheetValueText? reads).trans (suffix_of_openStyle? opened)).subset
  | none =>
    refine ⟨(narrow.readsNarrow fun text reads => Target.subset_of_attributeText? reads).1, ?_⟩
    exact fun target read => (narrow.readsNarrow fun text reads => Target.subset_of_styleText? read reads).2

end Markup

namespace Language

open Markup

/-- What completion reads at a caret stands behind narrow separators only. In a style sheet nothing is
read at a caret inside a character. -/
def WordsReadNarrow (source : List Char) (caret : Nat) : Language → Prop
  | .csharp => True
  | .html => Markup.WordsReadNarrow none (upTo caret source)
  | .php => Markup.WordsReadNarrow (some .php) (upTo caret source)
  | .erb => Markup.WordsReadNarrow (some .erb) (upTo caret source)
  | .css => ∀ before rest, cut (min caret (utf8Length source)) source = .ok (before, rest) →
      ReadsNarrow isValueSeparator (StyleTarget.sheetValueText? before)

theorem completeSheet_isOk_iff {source : List Char} {caret : Nat} :
    (∃ response, completeSheet source caret = .ok response) ↔
      Language.css.WordsReadNarrow source caret := by
  unfold completeSheet WordsReadNarrow
  cases cut (min caret (utf8Length source)) source with
  | error e => simp
  | ok parts =>
    obtain ⟨before, rest⟩ := parts
    simp only [completeStyle_isOk_iff, Except.ok.injEq, Prod.mk.injEq]
    constructor
    · rintro narrow _ _ ⟨rfl, rfl⟩
      exact narrow
    · exact fun narrow => narrow before rest ⟨rfl, rfl⟩

theorem wordsReadNarrow_of_blanksAreNarrow {source : List Char} (narrow : BlanksAreNarrow source)
    (caret : Nat) (language : Language) : language.WordsReadNarrow source caret := by
  have earlier : BlanksAreNarrow (upTo caret source) := by
    intro c inside
    have : c ∈ upTo caret source ++ after caret source := List.mem_append_left _ inside
    exact narrow c (upTo_append_after caret source ▸ this)
  cases language with
  | csharp => trivial
  | html => exact Markup.wordsReadNarrow_of_blanksAreNarrow earlier none
  | php => exact Markup.wordsReadNarrow_of_blanksAreNarrow earlier (some .php)
  | erb => exact Markup.wordsReadNarrow_of_blanksAreNarrow earlier (some .erb)
  | css =>
    intro before rest parts
    obtain ⟨whole, -⟩ := cut_eq_ok parts
    refine (narrow.readsNarrow fun text reads => ?_).2
    have inside := (StyleTarget.suffix_of_sheetValueText? reads).subset
    exact List.Subset.trans inside (whole ▸ List.subset_append_left before rest)

/-- Completion in markup and in style sheets has a response at a caret exactly when no word that it reads
there stands behind a separator of more than one byte; so it has one at every caret of a source whose
blanks are all of one byte. -/
theorem complete_isOk_iff {helper : Option Lookup.EmbeddedHelper} {catalog : Catalog} {nonPublic : Bool}
    {source : List Char} {caret : Nat} {language : Language} (notCode : language ≠ .csharp) :
    ((∃ response, language.complete helper catalog nonPublic source caret = .ok response) ↔
        language.WordsReadNarrow source caret) ∧
      (BlanksAreNarrow source →
        ∃ response, language.complete helper catalog nonPublic source caret = .ok response) := by
  have exact : (∃ response, language.complete helper catalog nonPublic source caret = .ok response) ↔
      language.WordsReadNarrow source caret := by
    cases language with
    | csharp => exact absurd rfl notCode
    | html => exact completeMarkup_isOk_iff
    | php => exact completeMarkup_isOk_iff
    | erb => exact completeMarkup_isOk_iff
    | css => exact completeSheet_isOk_iff
  exact ⟨exact, fun narrow => exact.mpr (wordsReadNarrow_of_blanksAreNarrow narrow caret language)⟩

theorem complete_isOk_iff_css :
    Language.css ≠ .csharp ∧ BlanksAreNarrow "b \x7b color: r".toList ∧
      ∃ response, Language.css.complete none ⟨{}, []⟩ false "b \x7b color: r".toList 12 = .ok response := by
  have notCode : Language.css ≠ .csharp := by decide
  have single : ("b \x7b color: r".toList.all fun c => c.utf8Size == 1) = true := by decide
  have narrow : BlanksAreNarrow "b \x7b color: r".toList := by
    intro c inside _
    simpa using List.all_eq_true.mp single c inside
  exact ⟨notCode, narrow, (complete_isOk_iff notCode).2 narrow⟩

/-- With a no-break space behind the colon there is no response. -/
theorem complete_css_noBreakSpace :
    ¬ ∃ response, Language.css.complete none ⟨{}, []⟩ false "b \x7b color:\u00a0r".toList 13 = .ok response := by
  have stuck : completeSheet "b \x7b color:\u00a0r".toList 13 = .error .offBoundary := by rfl
  rintro ⟨response, answer⟩
  have impossible := stuck.symm.trans answer
  simp at impossible

end Language

end Typeahead
