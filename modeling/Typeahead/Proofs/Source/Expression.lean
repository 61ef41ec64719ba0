import Mathlib.Data.List.Chain
import Typeahead.Proofs.Source.MemberSyntax

namespace Typeahead.Source

/-- An expression; an index has at least one argument. -/
inductive Expr where
  | name (word : String)
  | member (target : Expr) (word : String)
  | call (target : Expr) (arguments : List Expr)
  | index (target first : Expr) (others : List Expr)

/-- Marks that can stand right after a part of an expression. -/
def expressionMarks : List Char := ['.', '(', ')', '[', ']', ',', ';']

/-- The second lexeme can stand right after the first one in an expression and the semicolon after it. -/
def Follows : Lexeme → Lexeme → Prop
  | .word _, .mark c => c ∈ expressionMarks
  | .mark c, .word _ => c ∈ ['.', '(', '[', ',']
  | .mark c, .mark d => c ∈ ['(', ')', ']'] ∧ d ∈ expressionMarks
  | _, _ => False

namespace Expr

/-- The first word. -/
def head : Expr → String
  | name word => word
  | member target _ | call target _ | index target _ _ => target.head

mutual

def lexemes : Expr → List Lexeme
  | name word => [.word word]
  | member target word => target.lexemes ++ [.mark '.', .word word]
  | call target arguments => target.lexemes ++ .mark '(' :: (argumentsLexemes arguments ++ [.mark ')'])
  | index target first others =>
    target.lexemes ++ .mark '[' :: (first.lexemes ++ moreLexemes others ++ [.mark ']'])

def argumentsLexemes : List Expr → List Lexeme
  | [] => []
  | first :: others => first.lexemes ++ moreLexemes others

/-- The arguments after the first one. -/
def moreLexemes : List Expr → List Lexeme
  | [] => []
  | next :: others => .mark ',' :: (next.lexemes ++ moreLexemes others)

end

theorem exists_lexemes : ∀ e : Expr, ∃ later, e.lexemes = .word e.head :: later
  | name _ => ⟨[], rfl⟩
  | member target _ | call target _ | index target _ _ => by
    obtain ⟨later, eq⟩ := exists_lexemes target
    rw [lexemes, head, eq, List.cons_append]
    exact ⟨_, rfl⟩

mutual

theorem nested_lexemes : ∀ e : Expr, Nested e.lexemes
  | name word => .plain (isPlain_word word) .nil
  | member target word =>
    (nested_lexemes target).append (.plain (isPlain_mark (by decide)) (.plain (isPlain_word word) .nil))
  | call target arguments => (nested_lexemes target).append (.group .paren (nested_argumentsLexemes arguments) .nil)
  | index target first others =>
    (nested_lexemes target).append
      (.group .square ((nested_lexemes first).append (nested_moreLexemes others)) .nil)

theorem nested_argumentsLexemes : ∀ arguments : List Expr, Nested (argumentsLexemes arguments)
  | [] => .nil
  | first :: others => (nested_lexemes first).append (nested_moreLexemes others)

theorem nested_moreLexemes : ∀ others : List Expr, Nested (moreLexemes others)
  | [] => .nil
  | next :: others => .plain (isPlain_mark (by decide)) ((nested_lexemes next).append (nested_moreLexemes others))

end

theorem chain_opening (e : Expr) (opening : Char) {later : List Lexeme} (opens : opening ∈ ['(', '[', ','])
    (chain : List.IsChain Follows (e.lexemes ++ later)) :
    List.IsChain Follows (.mark opening :: (e.lexemes ++ later)) := by
  obtain ⟨more, eq⟩ := e.exists_lexemes
  rw [eq, List.cons_append] at chain ⊢
  exact .cons_cons (List.mem_cons_of_mem _ opens) chain

mutual

/-- An expression goes together with what can follow it. -/
theorem chain_lexemes : ∀ (e : Expr) (c : Char) (later : List Lexeme), c ∈ expressionMarks →
    List.IsChain Follows (.mark c :: later) → List.IsChain Follows (e.lexemes ++ .mark c :: later)
  | name _, _, _, follows, chain => .cons_cons follows chain
  | member target word, c, later, follows, chain => by
    have part : List.IsChain Follows (.mark '.' :: .word word :: .mark c :: later) :=
      .cons_cons (by decide : '.' ∈ ['.', '(', '[', ',']) (.cons_cons follows chain)
    simpa [lexemes] using chain_lexemes target '.' _ (by decide) part
  | call target arguments, c, later, follows, chain => by
    have closes : List.IsChain Follows (.mark ')' :: .mark c :: later) := .cons_cons ⟨by decide, follows⟩ chain
    have inside : List.IsChain Follows (.mark '(' :: (argumentsLexemes arguments ++ .mark ')' :: .mark c :: later)) :=
      chain_argumentsLexemes arguments _ closes
    simpa [lexemes] using chain_lexemes target '(' _ (by decide) inside
  | index target first others, c, later, follows, chain => by
    have closes : List.IsChain Follows (.mark ']' :: .mark c :: later) := .cons_cons ⟨by decide, follows⟩ chain
    obtain ⟨d, more, eq, part, rest⟩ := chain_moreLexemes others ']' _ (by decide) closes
    have inside := chain_opening first '[' (by decide) (chain_lexemes first d more part rest)
    rw [← eq] at inside
    simpa [lexemes] using chain_lexemes target '[' _ (by decide) inside

theorem chain_argumentsLexemes : ∀ (arguments : List Expr) (later : List Lexeme),
    List.IsChain Follows (.mark ')' :: later) →
    List.IsChain Follows (.mark '(' :: (argumentsLexemes arguments ++ .mark ')' :: later))
  | [], _, chain => .cons_cons (by decide : '(' ∈ ['(', ')', ']'] ∧ ')' ∈ expressionMarks) chain
  | first :: others, later, chain => by
    obtain ⟨d, more, eq, part, rest⟩ := chain_moreLexemes others ')' _ (by decide) chain
    have inside := chain_opening first '(' (by decide) (chain_lexemes first d more part rest)
    rwa [← eq, ← List.append_assoc] at inside

theorem chain_moreLexemes : ∀ (others : List Expr) (c : Char) (later : List Lexeme), c ∈ expressionMarks →
    List.IsChain Follows (.mark c :: later) →
    ∃ d more, moreLexemes others ++ .mark c :: later = .mark d :: more ∧ d ∈ expressionMarks ∧
      List.IsChain Follows (.mark d :: more)
  | [], c, later, follows, chain => ⟨c, later, rfl, follows, chain⟩
  | next :: others, c, later, follows, chain => by
    obtain ⟨d, more, eq, part, rest⟩ := chain_moreLexemes others c later follows chain
    refine ⟨',', next.lexemes ++ .mark d :: more, ?_, by decide, ?_⟩
    · simp [moreLexemes, eq]
    · exact chain_opening next ',' (by decide) (chain_lexemes next d more part rest)

end

end Expr

variable {t semicolon : Token} {ts front rest : List Token}

/-- Code right after a name in an expression: access to a member, an index, or a mark that ends the name. -/
inductive AfterName : List Token → Prop
  | member {dot part : Token} {later : List Token} {word : String} (isDot : dot.lexeme = .mark '.')
      (isWord : part.lexeme = .word word) (after : AfterName later) : AfterName (dot :: part :: later)
  | index {square first : Token} {later : List Token} {word : String} (isSquare : square.lexeme = .mark '[')
      (isWord : first.lexeme = .word word) : AfterName (square :: first :: later)
  | stop {mark : Token} {later : List Token} {c : Char} (isMark : mark.lexeme = .mark c)
      (stops : c ∈ ['(', ')', ']', ',', ';']) : AfterName (mark :: later)

theorem isWord_of_follows {c : Char} {l : Lexeme} (follows : Follows (.mark c) l) (binds : c ∈ ['.', '[']) :
    ∃ word, l = .word word := by
  cases l with
  | word text => exact ⟨text, rfl⟩
  | number text => exact follows.elim
  | mark d =>
    have joins := follows.1
    simp only [List.mem_cons, List.not_mem_nil, or_false] at binds joins
    rcases binds with rfl | rfl <;> simp at joins

/-- A part of an expression that goes together with a name before it. -/
theorem afterName_of_chain (front rest : List Token) {word : String} (isEnd : semicolon.lexeme = .mark ';')
    (chain : List.IsChain Follows (.word word :: (front.map (·.lexeme) ++ [.mark ';']))) :
    AfterName (front ++ semicolon :: rest) := by
  -- member accesses are taken two tokens at a time, so the recursion is on the list and not by `cons`
  match front with
  | [] => exact .stop isEnd (by decide)
  | mark :: more =>
    rw [List.map_cons, List.cons_append, List.isChain_cons_cons] at chain
    obtain ⟨follows, chain⟩ := chain
    cases isMark : mark.lexeme with
    | word text | number text =>
      rw [isMark] at follows
      exact follows.elim
    | mark c =>
      rw [isMark] at follows chain
      by_cases binds : c ∈ ['.', '[']
      · cases more with
        | nil =>
          obtain ⟨text, isWord⟩ := isWord_of_follows (List.isChain_cons_cons.mp chain).1 binds
          simp at isWord
        | cons part later =>
          rw [List.map_cons, List.cons_append, List.isChain_cons_cons] at chain
          obtain ⟨next, chain⟩ := chain
          obtain ⟨text, isWord⟩ := isWord_of_follows next binds
          rw [isWord] at chain
          simp only [List.mem_cons, List.not_mem_nil, or_false] at binds
          rcases binds with rfl | rfl
          · exact .member isMark isWord (afterName_of_chain later rest isEnd chain)
          · exact .index isMark isWord
      · refine .stop isMark ?_
        have inside : c ∈ expressionMarks := follows
        simp only [expressionMarks, List.mem_cons, List.not_mem_nil, or_false] at inside binds ⊢
        tauto

theorem AfterName.exists_mark (after : AfterName ts) :
    ∃ mark later c, ts = mark :: later ∧ mark.lexeme = .mark c ∧ c ∈ expressionMarks := by
  cases after with
  | member isDot _ _ => exact ⟨_, _, _, rfl, isDot, by decide⟩
  | index isSquare _ => exact ⟨_, _, _, rfl, isSquare, by decide⟩
  | @stop _ _ c isMark stops =>
    refine ⟨_, _, _, rfl, isMark, ?_⟩
    simp only [expressionMarks, List.mem_cons, List.not_mem_nil, or_false] at stops ⊢
    tauto

theorem AfterName.nextName?_eq_none (after : AfterName ts) : nextName? ts = none := by
  obtain ⟨mark, later, c, rfl, isMark, _⟩ := after.exists_mark
  exact nextName?_mark isMark

/-- Nothing more of a type is read where a name of an expression ends. -/
theorem AfterName.exists_dottedTail (after : AfterName ts) :
    ∃ text later, dottedTail ts = (text, later) ∧ AfterName later ∧ nextIs '<' later = false ∧
      typeMarks later = ("", later) := by
  induction after with
  | @member dot part later word isDot isWord _ ih =>
    obtain ⟨text, last, read, ends⟩ := ih
    have dotted := isMark_of_eq isDot
    refine ⟨"." ++ word ++ text, last, ?_, ends⟩
    simp only [dottedTail, dotted, word?_of_eq isWord, read, if_true]
  | @index square first later word isSquare isWord =>
    have notComma : first.isMark ',' = false := isMark_eq_false (by simp [isWord])
    have notClosing : first.isMark ']' = false := isMark_eq_false (by simp [isWord])
    have noRank : rankTail? (first :: later) = none := by simp [rankTail?, notComma, notClosing]
    have noDot : nextIs '.' (square :: first :: later) = false := by
      rw [nextIs_mark isSquare]
      rfl
    refine ⟨"", _, dottedTail_of_not_dot noDot, .index isSquare isWord, by rw [nextIs_mark isSquare]; rfl, ?_⟩
    rw [typeMarks, nextIs_mark isSquare]
    exact ranks_of_not_rank (isMark_of_eq isSquare) noRank
  | @stop mark later c isMark stops =>
    have ends : EndsType (mark :: later) := by
      refine endsType_mark isMark ?_
      simp only [List.mem_cons, List.not_mem_nil, or_false] at stops
      rcases stops with rfl | rfl | rfl | rfl | rfl <;> decide
    exact ⟨"", _, dottedTail_of_not_dot (ends '.' (by decide)), .stop isMark stops, ends '<' (by decide),
      typeMarks_of_endsType ends⟩

theorem AfterName.nextIs_colon (after : AfterName ts) : nextIs ':' ts = false := by
  obtain ⟨mark, later, c, rfl, isMark, inside⟩ := after.exists_mark
  rw [nextIs_mark isMark]
  refine beq_false_of_ne ?_
  rintro rfl
  exact absurd inside (by decide)

/-- A name in an expression that is read as a type has no name after it. -/
theorem AfterName.nextName?_of_readType? {text : String} {later : List Token} (after : AfterName ts)
    (read : readType? (t :: ts) = some (text, later)) : nextName? later = none := by
  obtain ⟨path, last, tail, ends, noAngle, noMarks⟩ := after.exists_dottedTail
  have undropped : dropGlobal (t :: ts) = t :: ts := dropGlobal_cons after.nextIs_colon
  cases first : nextName? (t :: ts) with
  | none =>
    have missing : dottedName? (t :: ts) = none := by simp [dottedName?, undropped, first]
    rw [readType?, typeFrom_of_not_dottedName missing] at read
    simp at read
  | some name =>
    have found : dottedName? (t :: ts) = some (name ++ path, last) := by simp [dottedName?, undropped, first, tail]
    rw [readType?, typeFrom_of_dottedName found, noAngle, typeTail_zero, noMarks] at read
    obtain ⟨-, rfl⟩ := Prod.mk.inj (Option.some.inj read)
    exact ends.nextName?_eq_none

theorem AfterName.nextName?_of_declaredType? {text : String} {later : List Token} (after : AfterName ts)
    (read : declaredType? (t :: ts) = some (text, later)) :
    nextName? later = none := by
  unfold declaredType? at read
  split at read
  · obtain ⟨-, rfl⟩ := Prod.mk.inj (Option.some.inj read)
    exact after.nextName?_eq_none
  · exact after.nextName?_of_readType? read

theorem dropGlobal_mark {c : Char} (isMark : t.lexeme = .mark c) : dropGlobal (t :: rest) = t :: rest := by
  have noWord : t.word? = none := by simp [Token.word?, isMark]
  rcases rest with _ | ⟨second, _ | ⟨third, more⟩⟩
  · rfl
  · rfl
  · simp [dropGlobal, noWord]

theorem readType?_mark {c : Char} (isMark : t.lexeme = .mark c) : readType? (t :: rest) = none := by
  have missing : dottedName? (t :: rest) = none := by
    simp [dottedName?, dropGlobal_mark isMark, nextName?_mark isMark]
  rw [readType?, typeFrom_of_not_dottedName missing]

theorem declaredType?_mark {c : Char} (isMark : t.lexeme = .mark c) : declaredType? (t :: rest) = none := by
  rw [declaredType?, nextWord?_mark isMark, readType?_mark isMark]
  rfl

theorem AfterName.readType?_eq_none (after : AfterName ts) : readType? ts = none := by
  obtain ⟨mark, later, c, rfl, isMark, _⟩ := after.exists_mark
  exact readType?_mark isMark

theorem expressionEnd_plain (bare : t.lexeme.IsPlain) (unended : t.lexeme ≠ .mark ';')
    (unseparated : t.lexeme ≠ .mark ',') :
    expressionEnd (t :: rest) = expressionEnd rest := by
  have brace := isMark_eq_false (bare .brace).2
  have paren := isMark_eq_false (bare .paren).2
  have square := isMark_eq_false (bare .square).2
  simp only [Bracket.closing] at brace paren square
  rw [expressionEnd, opens?_plain bare]
  simp only [isMark_eq_false unended, isMark_eq_false unseparated, Token.closesAny, brace, paren, square,
    Bool.or_false, Bool.false_eq_true, if_false]

theorem expressionEnd_group (kind : Bracket) {opening closing : Token}
    (isOpening : opening.lexeme = .mark kind.opening) (nested : Nested (ts.map (·.lexeme)))
    (isClosing : closing.lexeme = .mark kind.closing) (rest : List Token) :
    expressionEnd (opening :: (ts ++ closing :: rest)) = expressionEnd rest := by
  rw [expressionEnd, opens?_opening kind isOpening]
  simp only [afterCloser_group kind nested isClosing]

theorem expressionEnd_semicolon (isEnd : t.lexeme = .mark ';') : expressionEnd (t :: rest) = t :: rest := by
  have bare : t.lexeme.IsPlain := isEnd ▸ isPlain_mark (by decide)
  rw [expressionEnd, opens?_plain bare]
  simp only [isMark_of_eq isEnd, Bool.true_or, if_true]

/-- The search for the end of an expression goes past the whole expression. -/
theorem expressionEnd_expr : ∀ (e : Expr) (ts rest : List Token), ts.map (·.lexeme) = e.lexemes →
    expressionEnd (ts ++ rest) = expressionEnd rest
  | .name word, ts, rest, spelled => by
    obtain ⟨t, more, rfl, isWord, after⟩ := List.map_eq_cons_iff.mp spelled
    obtain rfl := List.map_eq_nil_iff.mp after
    exact expressionEnd_plain (isWord ▸ isPlain_word word) (by simp [isWord]) (by simp [isWord])
  | .member target word, ts, rest, spelled => by
    obtain ⟨front, tail, rfl, spelledTarget, spelledTail⟩ := List.map_eq_append_iff.mp spelled
    obtain ⟨dot, tail, rfl, isDot, spelledPart⟩ := List.map_eq_cons_iff.mp spelledTail
    obtain ⟨part, tail, rfl, isWord, none⟩ := List.map_eq_cons_iff.mp spelledPart
    obtain rfl := List.map_eq_nil_iff.mp none
    rw [List.append_assoc, expressionEnd_expr target front _ spelledTarget, List.cons_append,
      expressionEnd_plain (isDot ▸ isPlain_mark (by decide)) (by simp [isDot]) (by simp [isDot])]
    exact expressionEnd_plain (isWord ▸ isPlain_word word) (by simp [isWord]) (by simp [isWord])
  | .call target arguments, ts, rest, spelled => by
    obtain ⟨front, tail, rfl, spelledTarget, spelledTail⟩ := List.map_eq_append_iff.mp spelled
    obtain ⟨opening, tail, rfl, isOpening, spelledInside⟩ := List.map_eq_cons_iff.mp spelledTail
    obtain ⟨inside, tail, rfl, spelledArguments, spelledEnd⟩ := List.map_eq_append_iff.mp spelledInside
    obtain ⟨closing, tail, rfl, isClosing, none⟩ := List.map_eq_cons_iff.mp spelledEnd
    obtain rfl := List.map_eq_nil_iff.mp none
    rw [List.append_assoc, expressionEnd_expr target front _ spelledTarget, List.cons_append, List.append_assoc]
    exact expressionEnd_group .paren isOpening (spelledArguments ▸ Expr.nested_argumentsLexemes _) isClosing rest
  | .index target first others, ts, rest, spelled => by
    obtain ⟨front, tail, rfl, spelledTarget, spelledTail⟩ := List.map_eq_append_iff.mp spelled
    obtain ⟨opening, tail, rfl, isOpening, spelledInside⟩ := List.map_eq_cons_iff.mp spelledTail
    obtain ⟨inside, tail, rfl, spelledArguments, spelledEnd⟩ := List.map_eq_append_iff.mp spelledInside
    obtain ⟨closing, tail, rfl, isClosing, none⟩ := List.map_eq_cons_iff.mp spelledEnd
    obtain rfl := List.map_eq_nil_iff.mp none
    have nested := first.nested_lexemes.append (Expr.nested_moreLexemes others)
    rw [List.append_assoc, expressionEnd_expr target front _ spelledTarget, List.cons_append, List.append_assoc]
    exact expressionEnd_group .square isOpening (spelledArguments ▸ nested) isClosing rest

theorem exists_of_afterLastAs? {front later target : List Token}
    (found : afterLastAs? front.length (front ++ later) = some target) :
    ∃ before as after, front = before ++ as :: after ∧ as.word? = some "as" ∧ target = after ++ later := by
  induction front with
  | nil => simp [afterLastAs?] at found
  | cons t front ih =>
    simp only [List.length_cons, List.cons_append, afterLastAs?, Option.or_eq_some_iff] at found
    rcases found with found | ⟨-, found⟩
    · obtain ⟨before, as, after, rfl, isAs, eq⟩ := ih found
      exact ⟨t :: before, as, after, rfl, isAs, eq⟩
    · split at found
      · next isAs => exact ⟨[], t, front, rfl, by simpa using isAs, (Option.some.inj found).symm⟩
      · simp at found

theorem asType?_expr {e : Expr} (spelled : front.map (·.lexeme) = e.lexemes) (isEnd : semicolon.lexeme = .mark ';')
    (rest : List Token) :
    asType? (front ++ semicolon :: rest) (semicolon :: rest) = none := by
  have count : (front ++ semicolon :: rest).length - (semicolon :: rest).length = front.length := by
    rw [List.length_append, Nat.add_sub_cancel]
  rw [asType?, count]
  cases found : afterLastAs? front.length (front ++ semicolon :: rest) with
  | none => rfl
  | some target =>
    obtain ⟨before, as, after, rfl, isAs, rfl⟩ := exists_of_afterLastAs? found
    have chain := e.chain_lexemes ';' [] (by decide) (.singleton _)
    rw [← spelled, List.map_append, List.map_cons, lexeme_of_word? isAs, List.append_assoc] at chain
    have unread := (afterName_of_chain after rest isEnd chain.right_of_append).readType?_eq_none
    simp [unread]

/-- The initializer is kept as text, unless it starts with a word for a truth value. -/
theorem inferType_expr {e : Expr} (scan : Scan) (spelled : front.map (·.lexeme) = e.lexemes)
    (isEnd : semicolon.lexeme = .mark ';') (rest : List Token) :
    inferType scan (front ++ semicolon :: rest) (semicolon :: rest) =
      if e.head ∈ ["true", "false"] then ("bool", none)
      else ("var", some (.expression (scan.textBetween (front ++ semicolon :: rest) (semicolon :: rest)))) := by
  have noAs := asType?_expr spelled isEnd rest
  have chain := e.chain_lexemes ';' [] (by decide) (.singleton _)
  obtain ⟨later, shape⟩ := e.exists_lexemes
  rw [shape] at spelled
  obtain ⟨t, more, rfl, isWord, spelledMore⟩ := List.map_eq_cons_iff.mp spelled
  rw [shape, ← spelledMore, List.cons_append] at chain
  have unread := (afterName_of_chain more rest isEnd chain).readType?_eq_none
  have notParen : t.isMark '(' = false := isMark_eq_false (by simp [isWord])
  have noCreated : createdType? (t :: (more ++ semicolon :: rest)) = none := by simp [createdType?, unread]
  have noCast : castType? (t :: (more ++ semicolon :: rest)) (semicolon :: rest) = none := by
    simp [castType?, notParen]
  rw [List.cons_append] at noAs ⊢
  rw [inferType, noCreated, noCast, noAs]
  by_cases truth : e.head ∈ ["true", "false"]
  · have literal : e.head = "true" ∨ e.head = "false" := by simpa using truth
    simp [literalType?, isWord, literal]
  · have noLiteral : ¬(e.head = "true" ∨ e.head = "false") := by simpa using truth
    simp [literalType?, isWord, noLiteral]

end Typeahead.Source
