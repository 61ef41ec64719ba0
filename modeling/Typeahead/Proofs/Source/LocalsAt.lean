import Typeahead.Proofs.Source.Expression

namespace Typeahead.Source

/-- No local is declared at the second lexeme after the first one, and the second one neither opens nor
closes a block. -/
def Inert : Lexeme → Lexeme → Prop
  | .word _, .mark d => d ∉ ['{', '}']
  | .mark c, .word _ => c ∉ ['{', ';', '}', '(']
  | .mark c, .mark d => c ∉ ['{', ';', '}', '('] ∧ d ∉ ['{', '}']
  | _, _ => False

theorem not_inert_number {l : Lexeme} {text : String} : ¬ Inert l (.number text) := by
  cases l <;> exact id

theorem not_brace_of_inert {l : Lexeme} {c : Char} (inert : Inert l (.mark c)) : c ≠ '{' ∧ c ≠ '}' := by
  have bare : c ∉ ['{', '}'] := by
    cases l with
    | word text => exact inert
    | number text => exact inert.elim
    | mark d => exact inert.2
  simpa using bare

theorem exists_mark_of_inert {l : Lexeme} {word : String} (inert : Inert l (.word word)) :
    ∃ c, l = .mark c ∧ c ∉ ['{', ';', '}', '('] := by
  cases l with
  | word text | number text => exact inert.elim
  | mark c => exact ⟨c, rfl, inert⟩

/-- Code that can follow a word or a mark inside a type. -/
structure InertTail (later : List Lexeme) : Prop where
  marked : ∃ c more, later = .mark c :: more ∧ c ∉ ['{', '}']
  chain : List.IsChain Inert later

section Types

variable {c : Char} {later : List Lexeme}

theorem not_mem_braces (bare : c ∉ ['{', ';', '}', '(']) : c ∉ ['{', '}'] := by
  simp only [List.mem_cons, List.not_mem_nil, or_false, not_or] at bare ⊢
  exact ⟨bare.1, bare.2.2.1⟩

theorem InertTail.after_word (tail : InertTail later) (word : String) : List.IsChain Inert (.word word :: later) := by
  obtain ⟨⟨d, more, rfl, bare⟩, chain⟩ := tail
  exact .cons_cons bare chain

theorem InertTail.after_mark (tail : InertTail later) (bare : c ∉ ['{', ';', '}', '(']) :
    InertTail (.mark c :: later) := by
  obtain ⟨⟨d, more, rfl, inside⟩, chain⟩ := tail
  exact ⟨⟨c, _, rfl, not_mem_braces bare⟩, .cons_cons ⟨bare, inside⟩ chain⟩

/-- A mark and code that starts with a word. -/
theorem inertTail_of_word {word : String} (bare : c ∉ ['{', ';', '}', '('])
    (chain : List.IsChain Inert (.word word :: later)) : InertTail (.mark c :: .word word :: later) :=
  ⟨⟨c, _, rfl, not_mem_braces bare⟩, .cons_cons bare chain⟩

namespace TypeExpr

theorem inertTail_pathLexemes (path : List String) (tail : InertTail later) :
    InertTail (pathLexemes path ++ later) := by
  induction path with
  | nil => exact tail
  | cons part path ih => exact inertTail_of_word (by decide) (ih.after_word part)

theorem inertTail_ranksLexemes (commas : List Nat) (tail : InertTail later) :
    InertTail (ranksLexemes commas ++ later) := by
  have rank (n : Nat) {later : List Lexeme} (tail : InertTail later) : InertTail (rankLexemes n ++ later) := by
    induction n with
    | zero => exact tail.after_mark (by decide)
    | succ n ih => exact ih.after_mark (by decide)
  induction commas with
  | nil => exact tail
  | cons n commas ih =>
    have one : InertTail (.mark '[' :: (rankLexemes n ++ _)) := (rank n ih).after_mark (by decide)
    simpa [ranksLexemes] using one

theorem inertTail_marksLexemes (isNullable : Bool) (commas : List Nat) (tail : InertTail later) :
    InertTail (marksLexemes isNullable commas ++ later) := by
  have ranks := inertTail_ranksLexemes commas tail
  cases isNullable with
  | true => exact ranks.after_mark (by decide)
  | false => exact ranks

theorem lexemes_eq (e : TypeExpr) : ∃ more, e.lexemes = .word e.head.text :: more := by
  cases e
  exact ⟨_, rfl⟩

mutual

theorem inert_lexemes : ∀ (e : TypeExpr) (later : List Lexeme), InertTail later →
    List.IsChain Inert (e.lexemes ++ later)
  | mk head path arguments isNullable commas, later, tail => by
    have marks := inertTail_argumentsLexemes arguments _ (inertTail_marksLexemes isNullable commas tail)
    simpa [lexemes] using (inertTail_pathLexemes path marks).after_word head.text

theorem inertTail_argumentsLexemes : ∀ (arguments : List TypeExpr) (later : List Lexeme), InertTail later →
    InertTail (argumentsLexemes arguments ++ later)
  | [], _, tail => tail
  | first :: others, later, tail => by
    have chain := inert_lexemes first _ (inertTail_moreLexemes others later tail)
    obtain ⟨more, eq⟩ := first.lexemes_eq
    rw [argumentsLexemes, List.cons_append, List.append_assoc]
    rw [eq] at chain ⊢
    exact inertTail_of_word (by decide) chain

theorem inertTail_moreLexemes : ∀ (others : List TypeExpr) (later : List Lexeme), InertTail later →
    InertTail (moreLexemes others ++ later)
  | [], _, tail => tail.after_mark (by decide)
  | next :: others, later, tail => by
    have chain := inert_lexemes next _ (inertTail_moreLexemes others later tail)
    obtain ⟨more, eq⟩ := next.lexemes_eq
    rw [moreLexemes, List.cons_append, List.append_assoc]
    rw [eq] at chain ⊢
    exact inertTail_of_word (by decide) chain

end

end TypeExpr

end Types

variable {scan : Scan} {scope : LocalScope} {isStatic : Bool} {outer n : Nat} {blocks : List Nat}
  {before : Option Token} {previous t semicolon : Token} {ts rest : List Token} {c : Char} {word : String}

theorem statementLocals_mark (isMark : t.lexeme = .mark c) : statementLocals scan scope (t :: ts) = [] := by
  have ends : (nextWord? (t :: ts)).any statementWords.contains = false := by rw [nextWord?_mark isMark]; rfl
  rw [statementLocals, dropWords_of_ends ends, declaredType?_mark isMark]

theorem localsAt_mark (isMark : t.lexeme = .mark c) : localsAt scan scope before previous (t :: ts) = [] := by
  unfold localsAt
  split
  · exact statementLocals_mark isMark
  · split
    · split
      · rw [headerLocals, declaredType?_mark isMark]
      · rfl
    · split
      · rw [outLocals, nextWord?_mark isMark, readType?_mark isMark]
        rfl
      · rfl

theorem declarators_of_not_name {written : String} (missing : nextName? ts = none) :
    declarators scan scope written ts = [] := by
  match ts with
  | [] | [_] => rw [declarators]; simp
  | name :: follow :: rest =>
    have unnamed : nextName? [name] = none := missing
    rw [declarators, unnamed]

theorem statementLocals_afterName (isWord : t.lexeme = .word word) (after : AfterName ts) :
    statementLocals scan scope (t :: ts) = [] := by
  by_cases marked : word ∈ statementWords
  · obtain ⟨mark, later, c, rfl, isMark, _⟩ := after.exists_mark
    have dropped : dropWords statementWords ([t] ++ mark :: later) = mark :: later :=
      dropWords_append (by simp [isWord] : [t].map (·.lexeme) = [word].map .word) (by simpa using marked)
        (by rw [nextWord?_mark isMark]; rfl)
    rw [statementLocals, ← List.singleton_append, dropped, declaredType?_mark isMark]
  · have ends : (nextWord? (t :: ts)).any statementWords.contains = false := by simp [nextWord?_word isWord, marked]
    rw [statementLocals, dropWords_of_ends ends]
    split
    · next read => exact declarators_of_not_name (after.nextName?_of_declaredType? read)
    · rfl

theorem headerLocals_afterName {keyword : String} (after : AfterName ts) :
    headerLocals scan isStatic keyword (t :: ts) = [] := by
  unfold headerLocals
  split
  · rfl
  · next read => rw [after.nextName?_of_declaredType? read]

/-- No local is declared at a word of an expression. -/
theorem localsAt_afterName (isMark : previous.lexeme = .mark c) (isWord : t.lexeme = .word word)
    (after : AfterName ts) : localsAt scan scope before previous (t :: ts) = [] := by
  have noWord : previous.word? = none := by simp [Token.word?, isMark]
  unfold localsAt
  -- at the start of a statement, in a header, after the word for an out argument, elsewhere
  split
  · exact statementLocals_afterName isWord after
  · split
    · split
      · exact headerLocals_afterName after
      · rfl
    · simp [noWord]

/-- No local is declared right after a mark that starts neither a statement nor a list. -/
theorem localsAt_of_mark_before (isMark : previous.lexeme = .mark c) (inside : c ∉ ['{', ';', '}', '(']) :
    localsAt scan scope before previous ts = [] := by
  simp only [List.mem_cons, List.not_mem_nil, or_false, not_or] at inside
  simp [localsAt, Token.isMark, Token.word?, isMark, inside]

/-- No local is declared at a name with a mark after it, when something other than the start of a statement
or of a list is before it. -/
theorem localsAt_name {name : Name} {follow : Token} {d : Char} (inside : Inert previous.lexeme (.mark ';'))
    (isName : t.lexeme = .word name.text) (isFollow : follow.lexeme = .mark d) (ends : d ∉ ['.', '<', '?', '[', ':']) :
    localsAt scan scope before previous (t :: follow :: rest) = [] := by
  cases isPrevious : previous.lexeme with
  | number text =>
    rw [isPrevious] at inside
    exact inside.elim
  | mark c =>
    rw [isPrevious] at inside
    exact localsAt_of_mark_before isPrevious inside.1
  | word text =>
    have spelled : [t].map (·.lexeme) = (TypeExpr.named name).lexemes := by simp [isName, TypeExpr.lexemes_named]
    have read : readType? (t :: follow :: rest) = _ := readType?_expr spelled (endsType_mark isFollow ends)
    simp [localsAt, Token.isMark, isPrevious, outLocals, read, nextName?_mark isFollow]

theorem localsFrom_quiet (notOpening : t.lexeme ≠ .mark '{') (notClosing : t.lexeme ≠ .mark '}')
    (quiet : localsAt scan ⟨blocks.headD outer, isStatic⟩ before previous (t :: ts) = []) :
    localsFrom scan isStatic outer (n + 1) blocks before previous (t :: ts) =
      localsFrom scan isStatic outer n blocks (some previous) t ts := by
  rw [localsFrom, isMark_eq_false notOpening, isMark_eq_false notClosing, quiet]
  rfl

/-- The search goes on past code in which no local can be declared. -/
theorem localsFrom_inert (before : Option Token) (previous : Token)
    (chain : List.IsChain Inert (previous.lexeme :: (ts.map (·.lexeme) ++ [.mark ';']))) :
    ∃ before' last, Inert last.lexeme (.mark ';') ∧ ∀ scan isStatic outer n blocks rest,
      localsFrom scan isStatic outer (ts.length + n) blocks before previous (ts ++ rest) =
        localsFrom scan isStatic outer n blocks before' last rest := by
  induction ts generalizing before previous with
  | nil =>
    refine ⟨before, previous, (List.isChain_cons_cons.mp chain).1, fun _ _ _ n _ _ => ?_⟩
    rw [List.length_nil, Nat.zero_add, List.nil_append]
  | cons t ts ih =>
    rw [List.map_cons, List.cons_append, List.isChain_cons_cons] at chain
    obtain ⟨inert, chain⟩ := chain
    obtain ⟨before', last, ends, run⟩ := ih (some previous) t chain
    refine ⟨before', last, ends, fun scan isStatic outer n blocks rest => ?_⟩
    have count : (t :: ts).length + n = ts.length + n + 1 := by simp only [List.length_cons]; omega
    rw [count, List.cons_append, ← run]
    cases isNext : t.lexeme with
    | number text =>
      rw [isNext] at inert
      exact (not_inert_number inert).elim
    | mark d =>
      rw [isNext] at inert
      have bare := not_brace_of_inert inert
      exact localsFrom_quiet (by simpa [isNext] using bare.1) (by simpa [isNext] using bare.2) (localsAt_mark isNext)
    | word text =>
      rw [isNext] at inert
      obtain ⟨c, isMark, inside⟩ := exists_mark_of_inert inert
      exact localsFrom_quiet (by simp [isNext]) (by simp [isNext]) (localsAt_of_mark_before isMark inside)

theorem exists_mark_of_follows {l : Lexeme} (follows : Follows l (.word word)) : ∃ c, l = .mark c := by
  cases l with
  | word text | number text => exact follows.elim
  | mark c => exact ⟨c, rfl⟩

theorem not_brace_of_follows {l : Lexeme} (follows : Follows (.mark c) l) : c ≠ '{' ∧ c ≠ '}' := by
  have inside : c ∈ ['.', '(', '[', ','] ∨ c ∈ ['(', ')', ']'] := by
    cases l with
    | word text => exact .inl follows
    | number text => exact follows.elim
    | mark d => exact .inr follows.1
  refine ⟨?_, ?_⟩ <;> rintro rfl <;> exact absurd inside (by decide)

/-- The search finds nothing in an expression and goes on after its semicolon. -/
theorem localsFrom_expression (before : Option Token) (previous : Token) (isEnd : semicolon.lexeme = .mark ';')
    (chain : List.IsChain Follows (ts.map (·.lexeme) ++ [.mark ';']))
    (joins : ∀ word : String, (ts.map Token.lexeme ++ [Lexeme.mark ';']).head? = some (.word word) →
      ∃ c, previous.lexeme = .mark c) :
    ∃ before', ∀ scan isStatic outer n blocks rest,
      localsFrom scan isStatic outer (ts.length + (n + 1)) blocks before previous (ts ++ semicolon :: rest) =
        localsFrom scan isStatic outer n blocks before' semicolon rest := by
  induction ts generalizing before previous with
  | nil =>
    refine ⟨some previous, fun _ _ _ n _ _ => ?_⟩
    rw [List.length_nil, Nat.zero_add, List.nil_append]
    exact localsFrom_quiet (by simp [isEnd]) (by simp [isEnd]) (localsAt_mark isEnd)
  | cons t ts ih =>
    -- the lexeme after `t` tells what `t` is, and if it is a word, that `t` is a mark
    obtain ⟨next, later, shape⟩ := List.exists_cons_of_ne_nil
      (List.append_ne_nil_of_right_ne_nil (ts.map (·.lexeme)) (List.cons_ne_nil (Lexeme.mark ';') []))
    have whole := chain
    rw [List.map_cons, List.cons_append, shape, List.isChain_cons_cons] at chain
    obtain ⟨follows, chain⟩ := chain
    obtain ⟨before', run⟩ := ih (some previous) t (shape ▸ chain) fun word first => by
      rw [shape, List.head?_cons, Option.some.injEq] at first
      exact exists_mark_of_follows (first ▸ follows)
    refine ⟨before', fun scan isStatic outer n blocks rest => ?_⟩
    have count : (t :: ts).length + (n + 1) = ts.length + (n + 1) + 1 := by simp only [List.length_cons]; omega
    rw [count, List.cons_append, ← run]
    cases isNext : t.lexeme with
    | number text =>
      rw [isNext] at follows
      exact follows.elim
    | mark c =>
      rw [isNext] at follows
      have bare := not_brace_of_follows follows
      exact localsFrom_quiet (by simpa [isNext] using bare.1) (by simpa [isNext] using bare.2) (localsAt_mark isNext)
    | word text =>
      rw [List.map_cons, isNext] at whole joins
      obtain ⟨c, isMark⟩ := joins text rfl
      have after := afterName_of_chain ts rest isEnd whole
      exact localsFrom_quiet (by simp [isNext]) (by simp [isNext]) (localsAt_afterName isMark isNext after)

end Typeahead.Source
