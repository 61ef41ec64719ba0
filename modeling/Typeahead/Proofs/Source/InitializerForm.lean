import Typeahead.Proofs.Source.Expression
import Typeahead.Proofs.Source.TokenSuffix

namespace Typeahead.Source

open Text

/-- An initializer of members or elements in braces, or none. -/
inductive Members : List Lexeme → Prop
  | none : Members []
  | braces {inside : List Lexeme} (nested : Nested inside) : Members (.mark '{' :: (inside ++ [.mark '}']))

/-- A start of an expression that tells a type, with that type. Each but the last can be the whole expression. -/
inductive LeadingForm : List Lexeme → String → Prop
  /-- `new T(…)` -/
  | created (type : TypeExpr) {inside members : List Lexeme} (nested : Nested inside) (rest : Members members) :
      LeadingForm (.word "new" :: (type.lexemes ++ .mark '(' :: (inside ++ .mark ')' :: members))) type.text
  /-- `new T {…}` -/
  | initialized (type : TypeExpr) {inside : List Lexeme} (nested : Nested inside) :
      LeadingForm (.word "new" :: (type.lexemes ++ .mark '{' :: (inside ++ [.mark '}']))) type.text
  /-- `new T[size]` -/
  | array (head : Name) (path : List String) (arguments : List TypeExpr) {first : Lexeme} {size members : List Lexeme}
      (sized : first ∉ [.mark ',', .mark ']']) (nested : Nested (first :: size)) (rest : Members members) :
      LeadingForm
        (.word "new" :: ((TypeExpr.mk head path arguments false []).lexemes ++
          .mark '[' :: first :: (size ++ .mark ']' :: members)))
        ((TypeExpr.mk head path arguments false []).text ++ "[]")
  /-- A string; its text is blanked. -/
  | string {signs : List Char} (prefixes : ∀ sign ∈ signs, sign ∈ ['$', '@']) :
      LeadingForm (signs.map .mark ++ [.mark '"', .mark '"']) "string"
  | character : LeadingForm [.mark '\'', .mark '\''] "char"
  | truth {word : String} (isTruth : word ∈ ["true", "false"]) : LeadingForm [.word word] "bool"
  /-- `(T)` with something behind it: a cast, or a name in parentheses. -/
  | cast (type : TypeExpr) {operand : List Lexeme} (present : operand ≠ []) :
      LeadingForm (.mark '(' :: (type.lexemes ++ .mark ')' :: operand)) type.text

/-- Code up to `last` is read as a form at its start. -/
inductive Opens (last : List Token) : List Token → Prop
  | created {t : Token} {ts : List Token} (isNew : t.lexeme = .word "new") (read : (readType? ts).isSome) :
      Opens last (t :: ts)
  | quoted {t : Token} {ts : List Token} {c : Char} (isMark : t.lexeme = .mark c) (quotes : c ∈ ['"', '$', '@', '\'']) :
      Opens last (t :: ts)
  | number {t : Token} {ts : List Token} {text : String} (isNumber : t.lexeme = .number text) : Opens last (t :: ts)
  | truth {t : Token} {ts : List Token} {word : String} (isWord : t.lexeme = .word word)
      (isTruth : word ∈ ["true", "false"]) : Opens last (t :: ts)
  | cast {t : Token} {ts later : List Token} {text : String} (isOpening : t.lexeme = .mark '(')
      (read : readType? ts = some (text, later)) (closes : nextIs ')' later = true)
      (operand : last.length + 1 < later.length) : Opens last (t :: ts)

/-- The code ends with `as` and a type, in front of `last`. -/
def EndsInAs (code last : List Token) (type : String) : Prop :=
  ∃ front as target, code = front ++ as :: target ∧ as.lexeme = .word "as" ∧
    (∀ t ∈ target, t.lexeme ≠ .word "as") ∧ readType? (target ++ last) = some (type, last)

variable {scan : Scan} {t opening : Token} {ts code rest last target : List Token} {type : String} {c : Char}

/-- A bracket with a size in it is no rank of the type in front of it. -/
theorem readType?_sized {head : Name} {path : List String} {arguments : List TypeExpr} {first : Token}
    (spelled : ts.map (·.lexeme) = (TypeExpr.mk head path arguments false []).lexemes)
    (isOpening : opening.lexeme = .mark '[') (sized : first.lexeme ∉ [.mark ',', .mark ']']) :
    readType? (ts ++ opening :: first :: rest) =
      some ((TypeExpr.mk head path arguments false []).text, opening :: first :: rest) := by
  obtain ⟨word, more, rfl, isWord, tail⟩ := List.map_eq_cons_iff.mp spelled
  have unmarked : TypeExpr.marksLexemes false [] = [] ∧ TypeExpr.marksText false [] = "" := ⟨rfl, rfl⟩
  rw [unmarked.1, List.append_nil] at tail
  have other {c : Char} (different : '[' ≠ c) : nextIs c (opening :: first :: rest) = false := by
    rw [nextIs_mark isOpening]
    exact beq_false_of_ne different
  have noRank : rankTail? (first :: rest) = none := by
    simp only [List.mem_cons, List.not_mem_nil, or_false, not_or] at sized
    rw [rankTail?, isMark_eq_false sized.1, isMark_eq_false sized.2]
    rfl
  have noMarks : typeMarks (opening :: first :: rest) = ("", opening :: first :: rest) := by
    rw [typeMarks, other (by decide), ranks_of_not_rank (isMark_of_eq isOpening) noRank]
    rfl
  rw [readType?, List.cons_append, typeFrom_arguments arguments head path 0 word more _ isWord tail
    (other (by decide)) (other (by decide)) (other (by decide)), typeTail_zero, noMarks]
  simp [TypeExpr.text, unmarked]

theorem inferType_of_created (created : createdType? ts = some type) : inferType scan ts last = (type, none) := by
  cases ts with
  | nil => simp [createdType?] at created
  | cons t ts => simp [inferType, created]

theorem inferType_of_literal (unmade : createdType? ts = none) (literal : literalType? scan ts last = some type) :
    inferType scan ts last = (type, none) := by
  cases ts with
  | nil => simp [literalType?] at literal
  | cons t ts => simp [inferType, unmade, literal]

theorem createdType?_of_not_new (other : t.lexeme ≠ .word "new") : createdType? (t :: ts) = none := by
  have notNew : ¬ (t.word? == some "new") = true := fun isNew => other (lexeme_of_word? (by simpa using isNew))
  rw [createdType?, if_neg notNew]

theorem createdType?_new (isNew : t.lexeme = .word "new") (read : readType? ts = some (type, rest)) :
    createdType? (t :: ts) = some (if nextIs '[' rest then type ++ "[]" else type) := by
  have word : (t.word? == some "new") = true := by simp [Token.word?, isNew]
  rw [createdType?, if_pos word, read]
  rfl

theorem createdType?_object {e : TypeExpr} (isNew : t.lexeme = .word "new") (spelled : ts.map (·.lexeme) = e.lexemes)
    (isMark : opening.lexeme = .mark c) (opens : c ∈ ['(', '{']) :
    createdType? (t :: (ts ++ opening :: rest)) = some e.text := by
  have other : c ∉ ['.', '<', '?', '[', ':'] := by rcases List.mem_pair.mp opens with rfl | rfl <;> decide
  have unsized : nextIs '[' (opening :: rest) = false := by
    rw [nextIs_mark isMark]
    rcases List.mem_pair.mp opens with rfl | rfl <;> rfl
  rw [createdType?_new isNew (readType?_expr spelled (endsType_mark isMark other)), unsized]
  rfl

theorem createdType?_array {head : Name} {path : List String} {arguments : List TypeExpr} {first : Token}
    (isNew : t.lexeme = .word "new")
    (spelled : ts.map (·.lexeme) = (TypeExpr.mk head path arguments false []).lexemes)
    (isOpening : opening.lexeme = .mark '[') (sized : first.lexeme ∉ [.mark ',', .mark ']']) :
    createdType? (t :: (ts ++ opening :: first :: rest)) =
      some ((TypeExpr.mk head path arguments false []).text ++ "[]") := by
  have opens : nextIs '[' (opening :: first :: rest) = true := isMark_of_eq isOpening
  rw [createdType?_new isNew (readType?_sized spelled isOpening sized), opens]
  rfl

/-- The tokens of a type behind a first token and in front of a bracket. -/
theorem exists_typed {l : Lexeme} {typeLexemes more : List Lexeme}
    (spelled : ts.map (·.lexeme) = l :: (typeLexemes ++ .mark c :: more)) :
    ∃ first typed opening rest, ts = first :: (typed ++ opening :: rest) ∧ first.lexeme = l ∧
      typed.map (·.lexeme) = typeLexemes ∧ opening.lexeme = .mark c ∧ rest.map (·.lexeme) = more := by
  obtain ⟨first, behind, rfl, isFirst, spelledBehind⟩ := List.map_eq_cons_iff.mp spelled
  obtain ⟨typed, behind, rfl, spelledType, spelledRest⟩ := List.map_eq_append_iff.mp spelledBehind
  obtain ⟨opening, rest, rfl, isOpening, spelledMore⟩ := List.map_eq_cons_iff.mp spelledRest
  exact ⟨first, typed, opening, rest, rfl, isFirst, spelledType, isOpening, spelledMore⟩

theorem literalType?_mark (isMark : t.lexeme = .mark c) :
    literalType? scan (t :: ts) last =
      if c = '"' ∨ c = '$' ∨ c = '@' then some "string" else if c = '\'' then some "char" else none := by
  simp [literalType?, isMark]

theorem literalType?_truth {word : String} (isWord : t.lexeme = .word word) (isTruth : word ∈ ["true", "false"]) :
    literalType? scan (t :: ts) last = some "bool" := by
  have literal : word = "true" ∨ word = "false" := by simpa using isTruth
  simp [literalType?, isWord, literal]

/-- A type in parentheses in front of something tells the type. -/
theorem inferType_of_cast (isOpening : t.lexeme = .mark '(') (read : readType? ts = some (type, rest))
    (closes : nextIs ')' rest = true) (operand : last.length + 1 < rest.length) :
    inferType scan (t :: ts) last = (type, none) := by
  have unmade : createdType? (t :: ts) = none := createdType?_of_not_new (by simp [isOpening])
  have noLiteral : literalType? scan (t :: ts) last = none := by simp [literalType?_mark isOpening]
  have cast : castType? (t :: ts) last = some type := by
    simp [castType?, isMark_of_eq isOpening, read, closes, operand]
  simp [inferType, unmade, noLiteral, cast]

/-- A form at the start tells the type, whatever follows it. -/
theorem inferType_leadingForm {ls : List Lexeme} (form : LeadingForm ls type) (spelled : ts.map (·.lexeme) = ls)
    (rest last : List Token) : inferType scan (ts ++ (rest ++ last)) last = (type, none) := by
  cases form with
  | created e | initialized e =>
    obtain ⟨word, typed, opening, more, rfl, isNew, spelledType, isOpening, -⟩ := exists_typed spelled
    rw [List.cons_append, List.append_assoc]
    exact inferType_of_created (createdType?_object isNew spelledType isOpening (by decide))
  | array head path arguments sized =>
    obtain ⟨word, typed, opening, more, rfl, isNew, spelledType, isOpening, size⟩ := exists_typed spelled
    obtain ⟨first, more, rfl, isFirst, -⟩ := List.map_eq_cons_iff.mp size
    rw [List.cons_append, List.append_assoc]
    exact inferType_of_created (createdType?_array isNew spelledType isOpening (isFirst ▸ sized))
  | @string signs prefixes =>
    obtain ⟨first, more, rfl, c, isMark, quotes⟩ : ∃ first more, ts = first :: more ∧
        ∃ c, first.lexeme = .mark c ∧ (c = '"' ∨ c = '$' ∨ c = '@') := by
      cases signs with
      | nil =>
        obtain ⟨first, more, rfl, isQuote, -⟩ := List.map_eq_cons_iff.mp spelled
        exact ⟨first, more, rfl, '"', isQuote, .inl rfl⟩
      | cons sign signs =>
        obtain ⟨first, more, rfl, isSign, -⟩ := List.map_eq_cons_iff.mp spelled
        exact ⟨first, more, rfl, sign, isSign, .inr (List.mem_pair.mp (prefixes sign List.mem_cons_self))⟩
    refine inferType_of_literal (createdType?_of_not_new (by simp [isMark])) ?_
    exact (literalType?_mark isMark).trans (if_pos quotes)
  | character =>
    obtain ⟨quote, more, rfl, isQuote, -⟩ := List.map_eq_cons_iff.mp spelled
    refine inferType_of_literal (createdType?_of_not_new (by simp [isQuote])) ?_
    exact literalType?_mark isQuote
  | truth isTruth =>
    obtain ⟨word, more, rfl, isWord, -⟩ := List.map_eq_cons_iff.mp spelled
    have notNew : word.lexeme ≠ .word "new" := by
      rw [isWord]
      rcases List.mem_pair.mp isTruth with rfl | rfl <;> decide
    exact inferType_of_literal (createdType?_of_not_new notNew) (literalType?_truth isWord isTruth)
  | cast e present =>
    obtain ⟨opening, typed, closing, operand, rfl, isOpening, spelledType, isClosing, after⟩ := exists_typed spelled
    have read : readType? (typed ++ closing :: (operand ++ (rest ++ last))) =
        some (e.text, closing :: (operand ++ (rest ++ last))) :=
      readType?_expr spelledType (endsType_mark isClosing (by decide))
    have behind : 0 < operand.length := by
      rw [List.length_pos_iff]
      rintro rfl
      exact present after.symm
    rw [List.cons_append, List.append_assoc]
    refine inferType_of_cast isOpening read (isMark_of_eq isClosing) ?_
    simp only [List.length_cons, List.length_append]
    omega

/-- A number has a type that is told by the text of the whole initializer. -/
theorem inferType_number {text : String} (isNumber : t.lexeme = .number text) :
    inferType scan (t :: ts) last =
      (if isRealLiteral (scan.textBetween (t :: ts) last).toList then "double" else "int", none) := by
  refine inferType_of_literal (createdType?_of_not_new (by simp [isNumber])) ?_
  simp only [literalType?, isNumber]
  split <;> rfl

theorem word?_beq_as : (t.word? == some "as") = true ↔ t.lexeme = .word "as" := by
  refine ⟨fun isAs => lexeme_of_word? (by simpa using isAs), fun isAs => ?_⟩
  simp [Token.word?, isAs]

theorem afterLastAs?_cons (t : Token) (ts rest : List Token) :
    afterLastAs? (t :: ts).length (t :: ts ++ rest) =
      (afterLastAs? ts.length (ts ++ rest)).or (if t.word? == some "as" then some (ts ++ rest) else none) := by
  rw [List.length_cons, List.cons_append, afterLastAs?]

theorem afterLastAs?_eq_none_iff :
    afterLastAs? ts.length (ts ++ rest) = none ↔ ∀ t ∈ ts, t.lexeme ≠ .word "as" := by
  induction ts with
  | nil => simp [afterLastAs?]
  | cons t ts ih =>
    rw [afterLastAs?_cons, Option.or_eq_none_iff, ih, List.forall_mem_cons, ite_eq_right_iff, word?_beq_as, and_comm]
    simp

/-- What stands behind the last `as` of some code. -/
theorem afterLastAs?_eq_some_iff {later : List Token} :
    afterLastAs? ts.length (ts ++ rest) = some later ↔
      ∃ front as target, ts = front ++ as :: target ∧ as.lexeme = .word "as" ∧
        (∀ t ∈ target, t.lexeme ≠ .word "as") ∧ later = target ++ rest := by
  induction ts with
  | nil => simp [afterLastAs?]
  | cons t ts ih =>
    rw [afterLastAs?_cons, Option.or_eq_some_iff, ih, afterLastAs?_eq_none_iff]
    constructor
    · rintro (⟨front, as, target, rfl, found⟩ | ⟨free, found⟩)
      · exact ⟨t :: front, as, target, rfl, found⟩
      · obtain ⟨isAs, eq⟩ := Option.ite_none_right_eq_some.mp found
        exact ⟨[], t, ts, rfl, word?_beq_as.mp isAs, free, (Option.some.inj eq).symm⟩
    · rintro ⟨front, as, target, split, isAs, free, rfl⟩
      cases front with
      | nil =>
        obtain ⟨rfl, rfl⟩ := List.cons.inj split
        exact .inr ⟨free, if_pos (word?_beq_as.mpr isAs)⟩
      | cons first front =>
        obtain ⟨rfl, rfl⟩ := List.cons.inj split
        exact .inl ⟨front, as, target, rfl, isAs, free, rfl⟩

theorem asType?_eq_some_iff : asType? (code ++ last) last = some type ↔ EndsInAs code last type := by
  have count : (code ++ last).length - last.length = code.length := by rw [List.length_append, Nat.add_sub_cancel]
  simp only [asType?, count, Option.bind_eq_bind, Option.bind_eq_some_iff, afterLastAs?_eq_some_iff, EndsInAs]
  constructor
  · rintro ⟨_, ⟨front, as, target, split, isAs, free, rfl⟩, ⟨text, later⟩, read, ends⟩
    obtain ⟨same, eq⟩ := Option.ite_none_right_eq_some.mp ends
    obtain rfl := Option.some.inj eq
    -- both end the same list, and they are equally long
    have whole : later = last := (List.suffix_of_suffix_length_le (readType?_suffix read)
      (List.suffix_append target last) (Nat.le_of_eq same)).eq_of_length same
    exact ⟨front, as, target, split, isAs, free, whole ▸ read⟩
  · rintro ⟨front, as, target, split, isAs, free, read⟩
    exact ⟨_, ⟨front, as, target, split, isAs, free, rfl⟩, (type, last), read, if_pos rfl⟩

theorem createdType?_eq_none (closed : ¬ Opens last ts) : createdType? ts = none := by
  cases ts with
  | nil => rfl
  | cons t ts =>
    by_cases isNew : t.lexeme = .word "new"
    · have unread : readType? ts = none := by
        rw [← Option.not_isSome_iff_eq_none]
        exact fun read => closed (.created isNew read)
      simp [createdType?, unread]
    · exact createdType?_of_not_new isNew

theorem literalType?_eq_none (closed : ¬ Opens last ts) : literalType? scan ts last = none := by
  cases ts with
  | nil => rfl
  | cons t ts =>
    rw [literalType?]
    cases shape : t.lexeme with
    | mark c =>
      have unquoted : c ∉ ['"', '$', '@', '\''] := fun quotes => closed (.quoted shape quotes)
      simp only [List.mem_cons, List.not_mem_nil, or_false, not_or] at unquoted
      simp [unquoted]
    | number text => exact absurd (.number shape) closed
    | word word =>
      have notTruth : word ∉ ["true", "false"] := fun isTruth => closed (.truth shape isTruth)
      simp only [List.mem_cons, List.not_mem_nil, or_false] at notTruth
      simp [notTruth]

theorem castType?_eq_none (closed : ¬ Opens last ts) : castType? ts last = none := by
  cases ts with
  | nil => rfl
  | cons t ts =>
    rw [castType?]
    by_cases isOpening : t.lexeme = .mark '('
    · rw [if_pos (isMark_of_eq isOpening)]
      cases read : readType? ts with
      | none => rfl
      | some found =>
        obtain ⟨text, later⟩ := found
        refine if_neg fun casts => ?_
        simp only [Bool.and_eq_true, decide_eq_true_eq] at casts
        exact closed (.cast isOpening read casts.1 casts.2)
    · rw [isMark_eq_false isOpening]
      rfl

theorem inferType_of_not_opens (closed : ¬ Opens last ts) (present : ts ≠ []) :
    inferType scan ts last =
      match asType? ts last with
      | some type => (type, none)
      | none => ("var", some (.expression (scan.textBetween ts last))) := by
  have nonempty : ts.isEmpty = false := List.isEmpty_eq_false_iff.mpr present
  rw [inferType, nonempty, createdType?_eq_none closed, literalType?_eq_none closed, castType?_eq_none closed]
  rfl

/-- The type of an initializer. If it starts with a form that tells a type, it has that type, whatever follows
the form; a number counts as real by the text of the whole. If it starts otherwise, it has a type exactly if it
ends with `as` and that type, and if not, it is kept as text for its members to be looked up. -/
theorem type_of_initializer (scan : Scan) (code last : List Token) :
    (∀ form behind type, code = form ++ behind → LeadingForm (form.map (·.lexeme)) type →
        inferType scan (code ++ last) last = (type, none)) ∧
      (∀ number behind text, code = number :: behind → number.lexeme = .number text →
        inferType scan (code ++ last) last =
          (if isRealLiteral (scan.textBetween (code ++ last) last).toList then "double" else "int", none)) ∧
      (code ≠ [] → ¬ Opens last (code ++ last) →
        (∀ type, inferType scan (code ++ last) last = (type, none) ↔ EndsInAs code last type) ∧
          ((∀ type, ¬ EndsInAs code last type) →
            inferType scan (code ++ last) last =
              ("var", some (.expression (scan.textBetween (code ++ last) last))))) := by
  refine ⟨?_, ?_, fun present closed => ?_⟩
  · rintro form behind type rfl leads
    rw [List.append_assoc]
    exact inferType_leadingForm leads rfl behind last
  · rintro number behind text rfl isNumber
    exact inferType_number isNumber
  · have nonempty : code ++ last ≠ [] := List.append_ne_nil_of_left_ne_nil present last
    rw [inferType_of_not_opens closed nonempty]
    refine ⟨fun type => ?_, fun otherwise => ?_⟩
    · rw [← asType?_eq_some_iff]
      cases asType? (code ++ last) last <;> simp
    · have noAs : asType? (code ++ last) last = none :=
        Option.eq_none_iff_forall_ne_some.mpr fun type => otherwise type ∘ asType?_eq_some_iff.mp
      rw [noAs]

/-- A created object, and a member of it. -/
def createdTokens : List Token :=
  [⟨.word "new", 0⟩, ⟨.word "T", 4⟩, ⟨.mark '(', 5⟩, ⟨.word "a", 6⟩, ⟨.mark ')', 7⟩]

def memberTokens : List Token := [⟨.mark '.', 8⟩, ⟨.word "M", 9⟩]

/-- `a as T` -/
def asTokens : List Token := [⟨.word "a", 0⟩, ⟨.word "as", 2⟩, ⟨.word "T", 5⟩]

theorem type_of_initializer_member :
    inferType ⟨"new T(a).M;".toList, 11⟩ (createdTokens ++ memberTokens ++ [⟨.mark ';', 10⟩]) [⟨.mark ';', 10⟩] =
        ("T", none) ∧
      inferType ⟨"a as T;".toList, 7⟩ (asTokens ++ [⟨.mark ';', 6⟩]) [⟨.mark ';', 6⟩] = ("T", none) := by
  have created : LeadingForm (createdTokens.map (·.lexeme)) "T" :=
    .created (.named { text := "T" }) (.plain (isPlain_word "a") .nil) .none
  have read : readType? ([⟨.word "T", 5⟩] ++ [⟨.mark ';', 6⟩]) = some ("T", [⟨.mark ';', 6⟩]) := by decide +kernel
  have ends : EndsInAs asTokens [⟨.mark ';', 6⟩] "T" := ⟨[⟨.word "a", 0⟩], _, _, rfl, rfl, by simp, read⟩
  have closed : ¬ Opens [⟨.mark ';', 6⟩] (asTokens ++ [⟨.mark ';', 6⟩]) := by
    intro opens
    cases opens with
    | created isNew => exact absurd isNew (by decide)
    | quoted isMark => exact absurd isMark (by simp)
    | number isNumber => exact absurd isNumber (by simp)
    | truth isWord isTruth =>
      obtain rfl := Lexeme.word.inj isWord
      exact absurd isTruth (by decide)
    | cast isOpening => exact absurd isOpening (by simp)
  exact ⟨(type_of_initializer _ _ _).1 createdTokens memberTokens "T" rfl created,
    (((type_of_initializer _ _ _).2.2 (by decide) closed).1 "T").mpr ends⟩

/-- The type that is recorded for a value. -/
def recordedType (value : String) : String × Option Initializer :=
  let scan : Scan := ⟨value.toList ++ [';'], utf8Length value.toList + 1⟩
  initializedType scan "var" (tokensFrom 0 scan.text) (expressionEnd (tokensFrom 0 scan.text))

/-- A member of a new object, of a new array, of a string or of a truth value gets the type of what it is a member
of, and a member of a name in parentheses the name itself as its type. -/
theorem members_have_type_of_start :
    ["new T().M()", "new T[n].M", "\"  \".M", "true.M()", "(a).M()"].map recordedType =
        [("T", none), ("T[]", none), ("string", none), ("bool", none), ("a", none)] ∧
      recordedType "a.M()" = ("var", some (.expression "a.M()")) := by
  decide +kernel

end Typeahead.Source
