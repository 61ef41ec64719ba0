import Typeahead.Source.Member

namespace Typeahead.Source

/-- The lexeme opens and closes no group. -/
def Lexeme.IsPlain (l : Lexeme) : Prop := ∀ kind : Bracket, l ≠ .mark kind.opening ∧ l ≠ .mark kind.closing

/-- Code in which every group is closed by its own kind of bracket. -/
inductive Nested : List Lexeme → Prop
  | nil : Nested []
  | plain {l : Lexeme} {later : List Lexeme} (bare : l.IsPlain) (rest : Nested later) : Nested (l :: later)
  | group (kind : Bracket) {inside later : List Lexeme} (inner : Nested inside) (rest : Nested later) :
      Nested (.mark kind.opening :: (inside ++ .mark kind.closing :: later))

/-- Nested code without a brace or a semicolon outside its parentheses and square brackets. -/
inductive Clause : List Lexeme → Prop
  | nil : Clause []
  | plain {l : Lexeme} {later : List Lexeme} (bare : l.IsPlain) (unended : l ≠ .mark ';') (rest : Clause later) :
      Clause (l :: later)
  | group (kind : Bracket) (unbraced : kind ≠ .brace) {inside later : List Lexeme} (inner : Nested inside)
      (rest : Clause later) : Clause (.mark kind.opening :: (inside ++ .mark kind.closing :: later))

variable {kind other : Bracket} {depth : Nat} {t opening closing : Token} {ts rest : List Token} {ls ms : List Lexeme}

theorem isPlain_word (text : String) : (Lexeme.word text).IsPlain := by
  simp [Lexeme.IsPlain]

theorem isPlain_mark {c : Char} (bare : c ∉ ['{', '}', '(', ')', '[', ']']) : (Lexeme.mark c).IsPlain := by
  intro kind
  simp only [List.mem_cons, List.not_mem_nil, or_false, not_or] at bare
  cases kind <;> simp [Bracket.opening, Bracket.closing, bare]

theorem Nested.append (first : Nested ls) (second : Nested ms) : Nested (ls ++ ms) := by
  induction first with
  | nil => exact second
  | plain bare _ ih => exact .plain bare ih
  | group kind inner _ _ ih =>
    rw [List.cons_append, List.append_assoc, List.cons_append]
    exact .group kind inner ih

theorem isMark_of_eq {c : Char} (h : t.lexeme = .mark c) : t.isMark c = true := by
  simp [Token.isMark, h]

theorem lexeme_of_isMark {c : Char} (h : t.isMark c = true) : t.lexeme = .mark c := by
  simpa [Token.isMark] using h

theorem isMark_eq_false {c : Char} (h : t.lexeme ≠ .mark c) : t.isMark c = false := by
  simpa [Token.isMark] using h

theorem Bracket.opening_ne (different : other ≠ kind) : other.opening ≠ kind.opening ∧ other.opening ≠ kind.closing ∧
    other.closing ≠ kind.opening ∧ other.closing ≠ kind.closing := by
  cases other <;> cases kind <;> first | exact absurd rfl different | decide

theorem Bracket.closing_ne_opening (kind : Bracket) : kind.closing ≠ kind.opening := by
  cases kind <;> decide

theorem closerFrom_opening (h : t.lexeme = .mark kind.opening) :
    closerFrom kind depth (t :: ts) = closerFrom kind (depth + 1) ts := by
  simp only [closerFrom, isMark_of_eq h, if_true]

theorem closerFrom_closing (h : t.lexeme = .mark kind.closing) :
    closerFrom kind (depth + 1) (t :: ts) = closerFrom kind depth ts := by
  have notOpening : t.lexeme ≠ .mark kind.opening := by simp [h, kind.closing_ne_opening]
  rw [closerFrom, isMark_eq_false notOpening, isMark_of_eq h]
  rfl

theorem closerFrom_other (notOpening : t.lexeme ≠ .mark kind.opening) (notClosing : t.lexeme ≠ .mark kind.closing) :
    closerFrom kind depth (t :: ts) = closerFrom kind depth ts := by
  simp only [closerFrom, isMark_eq_false notOpening, isMark_eq_false notClosing, Bool.false_eq_true, if_false]

/-- A search for a closing bracket goes past nested code with the same number of open groups. -/
theorem closerFrom_append (nested : Nested ls) (spelled : ts.map (·.lexeme) = ls) :
    closerFrom kind depth (ts ++ rest) = closerFrom kind depth rest := by
  induction nested generalizing ts depth rest with
  | nil =>
    obtain rfl := List.map_eq_nil_iff.mp spelled
    rfl
  | plain bare _ ih =>
    obtain ⟨t, more, rfl, rfl, after⟩ := List.map_eq_cons_iff.mp spelled
    rw [List.cons_append, closerFrom_other (bare kind).1 (bare kind).2, ih after]
  | group other _ _ inside later =>
    obtain ⟨opening, more, rfl, isOpening, tail⟩ := List.map_eq_cons_iff.mp spelled
    obtain ⟨inner, more, rfl, spelledInner, tail⟩ := List.map_eq_append_iff.mp tail
    obtain ⟨closing, more, rfl, isClosing, after⟩ := List.map_eq_cons_iff.mp tail
    rw [List.cons_append, List.append_assoc, List.cons_append]
    -- a group of the same kind is counted and counted off again; brackets of another kind do not count
    by_cases same : other = kind
    · subst same
      rw [closerFrom_opening isOpening, inside spelledInner, closerFrom_closing isClosing, later after]
    · obtain ⟨a, b, c, d⟩ := Bracket.opening_ne same
      rw [closerFrom_other (by simp [isOpening, a]) (by simp [isOpening, b]), inside spelledInner,
        closerFrom_other (by simp [isClosing, c]) (by simp [isClosing, d]), later after]

theorem closerFrom_append_right {later : List Token} (found : closerFrom kind depth ts = some later)
    (rest : List Token) :
    closerFrom kind depth (ts ++ rest) = some (later ++ rest) := by
  induction ts generalizing depth with
  | nil => simp [closerFrom] at found
  | cons t ts ih =>
    simp only [List.cons_append, closerFrom] at found ⊢
    split
    · next opens => exact ih (by simpa [opens] using found)
    · next other =>
      rw [if_neg other] at found
      split
      · next closes =>
        rw [if_pos closes] at found
        cases depth with
        | zero => simp [← Option.some.inj found]
        | succ depth => exact ih found
      · next plain => exact ih (by simpa [plain] using found)

/-- Code at the start of nested code closes no group that it does not open. -/
theorem closerFrom_start {front : List Token} (nested : Nested (ts.map (·.lexeme))) (start : front <+: ts) :
    closerFrom kind 0 front = none := by
  obtain ⟨back, rfl⟩ := start
  cases found : closerFrom kind 0 front with
  | none => rfl
  | some later =>
    have whole : closerFrom kind 0 (front ++ back ++ []) = closerFrom kind 0 [] := closerFrom_append nested rfl
    rw [List.append_nil, closerFrom_append_right found back] at whole
    simp [closerFrom] at whole

/-- The group that nested code fills ends with the first bracket after it. -/
theorem closerFrom_group (kind : Bracket) (nested : Nested (ts.map (·.lexeme)))
    (isClosing : closing.lexeme = .mark kind.closing) (rest : List Token) :
    closerFrom kind 0 (ts ++ closing :: rest) = some (closing :: rest) := by
  have notOpening : closing.lexeme ≠ .mark kind.opening := by simp [isClosing, kind.closing_ne_opening]
  rw [closerFrom_append nested rfl, closerFrom, isMark_eq_false notOpening, isMark_of_eq isClosing]
  rfl

theorem fromCloser_group (kind : Bracket) (nested : Nested (ts.map (·.lexeme)))
    (isClosing : closing.lexeme = .mark kind.closing) (rest : List Token) :
    fromCloser kind (ts ++ closing :: rest) = closing :: rest := by
  rw [fromCloser, closerFrom_group kind nested isClosing, Option.getD_some]

theorem afterCloser_group (kind : Bracket) (nested : Nested (ts.map (·.lexeme)))
    (isClosing : closing.lexeme = .mark kind.closing) (rest : List Token) :
    afterCloser kind (ts ++ closing :: rest) = rest := by
  rw [afterCloser, fromCloser_group kind nested isClosing]
  rfl

theorem insideGroup_group (kind : Bracket) (nested : Nested (ts.map (·.lexeme)))
    (isClosing : closing.lexeme = .mark kind.closing) (rest : List Token) :
    insideGroup kind (ts ++ closing :: rest) = ts := by
  rw [insideGroup, fromCloser_group kind nested isClosing, List.length_append, Nat.add_sub_cancel, List.take_left]

theorem opens?_opening (kind : Bracket) (h : t.lexeme = .mark kind.opening) : t.opens? = some kind := by
  cases kind <;> simp [Token.opens?, Token.isMark, h, Bracket.opening]

theorem opens?_plain (bare : t.lexeme.IsPlain) : t.opens? = none := by
  have brace := isMark_eq_false (bare .brace).1
  have paren := isMark_eq_false (bare .paren).1
  have square := isMark_eq_false (bare .square).1
  simp only [Bracket.opening] at brace paren square
  simp [Token.opens?, brace, paren, square]

/-- A member that is skipped is skipped past each of its clauses. -/
theorem skipMember_append (clause : Clause ls) (spelled : ts.map (·.lexeme) = ls) :
    skipMember (ts ++ rest) = skipMember rest := by
  induction clause generalizing ts with
  | nil =>
    obtain rfl := List.map_eq_nil_iff.mp spelled
    rfl
  | plain bare unended _ ih =>
    obtain ⟨t, more, rfl, rfl, after⟩ := List.map_eq_cons_iff.mp spelled
    rw [List.cons_append, skipMember, opens?_plain bare, isMark_eq_false unended, ← ih after]
    rfl
  | group kind unbraced inner _ ih =>
    obtain ⟨opening, more, rfl, isOpening, tail⟩ := List.map_eq_cons_iff.mp spelled
    obtain ⟨inside, more, rfl, spelledInner, tail⟩ := List.map_eq_append_iff.mp tail
    obtain ⟨closing, more, rfl, isClosing, after⟩ := List.map_eq_cons_iff.mp tail
    rw [List.cons_append, List.append_assoc, List.cons_append, skipMember, opens?_opening kind isOpening]
    cases kind with
    | brace => exact absurd rfl unbraced
    | paren | square =>
      rw [← ih after]
      exact congrArg skipMember (afterCloser_group _ (spelledInner ▸ inner) isClosing _)

theorem skipMember_semicolon (clause : Clause (ts.map (·.lexeme))) (ends : t.lexeme = .mark ';')
    (rest : List Token) :
    skipMember (ts ++ t :: rest) = rest := by
  have bare : t.lexeme.IsPlain := ends ▸ isPlain_mark (by decide)
  rw [skipMember_append clause rfl, skipMember, opens?_plain bare, isMark_of_eq ends]
  rfl

theorem skipMember_block {inside : List Token} (clause : Clause (ts.map (·.lexeme)))
    (isOpening : opening.lexeme = .mark '{') (nested : Nested (inside.map (·.lexeme)))
    (isClosing : closing.lexeme = .mark '}') (rest : List Token) :
    skipMember (ts ++ opening :: (inside ++ closing :: rest)) = rest := by
  rw [skipMember_append clause rfl, skipMember, opens?_opening .brace isOpening]
  exact afterCloser_group .brace nested isClosing rest

end Typeahead.Source
