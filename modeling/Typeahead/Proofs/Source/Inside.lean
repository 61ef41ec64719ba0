import Typeahead.Proofs.Source.ByteScan
import Typeahead.Proofs.Source.Mode

namespace Typeahead.Source

open Text

/-- An offset at the cut between two parts of a text, or inside the character behind the cut. -/
def FallsBetween (offset : Nat) (before rest : List Char) : Prop :=
  (rest = [] ∧ offset = utf8Length before) ∨
    ∃ c later, rest = c :: later ∧ utf8Length before ≤ offset ∧ offset < utf8Length before + c.utf8Size

theorem FallsBetween.le {offset : Nat} {before rest : List Char} (falls : FallsBetween offset before rest) :
    utf8Length before ≤ offset := by
  rcases falls with ⟨-, size⟩ | ⟨c, later, -, lower, -⟩ <;> omega

theorem fallsBetween_upTo {offset : Nat} {cs : List Char} (within : offset ≤ utf8Length cs) :
    FallsBetween offset (upTo offset cs) (after offset cs) := by
  induction cs generalizing offset with
  | nil => exact .inl ⟨rfl, by simpa [upTo] using within⟩
  | cons c cs ih =>
    rw [utf8Length_cons] at within
    by_cases fits : c.utf8Size ≤ offset
    · simp only [upTo, after, if_pos fits]
      have shorter : offset - c.utf8Size ≤ utf8Length cs := by omega
      rcases ih shorter with ⟨none, size⟩ | ⟨d, later, rest, lower, upper⟩
      · exact .inl ⟨none, by rw [utf8Length_cons]; omega⟩
      · exact .inr ⟨d, later, rest, by rw [utf8Length_cons]; omega, by rw [utf8Length_cons]; omega⟩
    · simp only [upTo, after, if_neg fits]
      exact .inr ⟨c, cs, rfl, by simp, by simpa using fits⟩

/-- Behind a first part of the text the same offset falls between the same parts. -/
theorem FallsBetween.behind {offset : Nat} {front before rest : List Char}
    (falls : FallsBetween offset (front ++ before) rest) :
    utf8Length front ≤ offset ∧ FallsBetween (offset - utf8Length front) before rest := by
  have le := falls.le
  rw [utf8Length_append] at le
  refine ⟨by omega, ?_⟩
  rcases falls with ⟨none, size⟩ | ⟨c, later, split, lower, upper⟩
  · rw [utf8Length_append] at size
    exact .inl ⟨none, by omega⟩
  · rw [utf8Length_append] at lower upper
    exact .inr ⟨c, later, split, by omega, by omega⟩

/-- An offset in a first part of the text is within its length, also at its end when the character behind
it takes one byte. -/
theorem FallsBetween.le_of_append {offset : Nat} {before mid later : List Char}
    (falls : FallsBetween offset before (mid ++ later)) (narrow : ∀ c ∈ later.head?, c.utf8Size = 1) :
    offset ≤ utf8Length (before ++ mid) := by
  rw [utf8Length_append]
  rcases falls with ⟨none, size⟩ | ⟨c, rest, split, lower, upper⟩
  · omega
  · cases mid with
    | nil =>
      have one := narrow c (by rw [List.nil_append] at split; simp [split])
      omega
    | cons d mid =>
      obtain ⟨rfl, -⟩ := List.cons.inj split
      rw [utf8Length_cons]
      omega

/-- An offset before the end of a first part of the text is less than its length. -/
theorem FallsBetween.lt_of_append {offset : Nat} {before mid later : List Char}
    (falls : FallsBetween offset before (mid ++ later)) (more : mid ≠ []) : offset < utf8Length (before ++ mid) := by
  obtain ⟨c, back, rfl⟩ := List.exists_cons_of_ne_nil more
  rw [utf8Length_append, utf8Length_cons]
  rcases falls with ⟨none, -⟩ | ⟨d, rest, split, -, upper⟩
  · exact absurd none (List.cons_ne_nil c _)
  · obtain ⟨rfl, -⟩ := List.cons.inj split
    omega

/-- A place in a text of two parts is in the first part or beyond it. -/
theorem append_eq_append_cases {front later before rest : List Char} (whole : front ++ later = before ++ rest) :
    (∃ mid, front = before ++ mid ∧ rest = mid ++ later) ∨
      ∃ beyond, beyond ≠ [] ∧ before = front ++ beyond ∧ later = beyond ++ rest := by
  rcases List.append_eq_append_iff.mp whole with ⟨beyond, longer, behind⟩ | ⟨mid, longer, behind⟩
  · by_cases none : beyond = []
    · subst none
      exact .inl ⟨[], by simpa using longer.symm, by simpa using behind.symm⟩
    · exact .inr ⟨beyond, none, longer, behind⟩
  · exact .inl ⟨mid, longer, behind⟩

/-- Whether a region of the pieces contains the offset. -/
def containedIn (offset : Nat) (ps : List Piece) (caret : Nat) : Bool :=
  (regionsFrom offset ps).any (·.contains caret)

theorem containedIn_cons (offset : Nat) (p : Piece) (ps : List Piece) (caret : Nat) :
    containedIn offset (p :: ps) caret =
      ((p.kind.any fun kind => Region.contains ⟨kind, offset, offset + utf8Length p.text⟩ caret) ||
        containedIn (offset + utf8Length p.text) ps caret) := by
  unfold containedIn
  simp only [regionsFrom]
  cases p.kind <;> simp

theorem containedIn_code (offset : Nat) (c : Char) (ps : List Piece) (caret : Nat) :
    containedIn offset (code c :: ps) caret = containedIn (offset + c.utf8Size) ps caret := by
  rw [containedIn_cons]
  simp [code]

/-- No region begins before the place where its pieces begin. -/
theorem containedIn_of_lt {offset caret : Nat} (ps : List Piece) (early : caret < offset) :
    containedIn offset ps caret = false := by
  induction ps generalizing offset with
  | nil => rfl
  | cons p ps ih =>
    rw [containedIn_cons, ih (by omega)]
    cases p.kind with
    | none => rfl
    | some kind => cases kind <;> simp [Region.contains] <;> omega

/-- The first character of a source is in no region, its opening delimiters before it included. -/
theorem containedIn_pieces_start {cs : List Char} {caret : Nat} (start : FallsBetween caret [] cs) (offset : Nat) :
    containedIn offset (pieces cs) (offset + caret) = false := by
  have first {c : Char} {rest : List Char} (split : cs = c :: rest) : caret < c.utf8Size := by
    rcases start with ⟨none, -⟩ | ⟨d, later, same, -, upper⟩
    · simp [split] at none
    · obtain ⟨rfl, -⟩ := List.cons.inj (split.symm.trans same)
      simpa using upper
  have behindCode (c : Char) (ps : List Piece) (early : caret < c.utf8Size) :
      containedIn offset (code c :: ps) (offset + caret) = false := by
    rw [containedIn_code]
    exact containedIn_of_lt ps (by omega)
  unfold pieces
  split
  · rfl
  · have zero : caret = 0 := by have : caret < 1 := first rfl; omega
    rw [containedIn_cons, containedIn_of_lt]
    · simp [Region.contains, zero]
    · have := '/'.utf8Size_pos
      rw [utf8Length_cons]
      omega
  · have zero : caret = 0 := by have : caret < 1 := first rfl; omega
    rw [containedIn_cons, containedIn_of_lt]
    · simp [Region.contains, zero]
    · have := '/'.utf8Size_pos
      rw [utf8Length_cons]
      omega
  · exact behindCode '@' _ (first rfl)
  · exact behindCode '@' _ (first rfl)
  · split
    · exact behindCode _ _ (first rfl)
    · exact behindCode _ _ (first rfl)

namespace Mode

/-- Nothing that was read before the text keeps it from being read as code. -/
def GoesOnAsCode : Mode → List Char → Prop
  | .code, _ => True
  | .atSign, cs => cs.head? ≠ some '"' ∧ ∀ more, cs ≠ '$' :: '"' :: more
  | .atDollar, cs | .verbatimQuote, cs => cs.head? ≠ some '"'
  | .slash, cs => cs.head? ≠ some '/' ∧ cs.head? ≠ some '*'
  | .lineComment, cs | .literal _, cs => ∀ c ∈ cs.head?, c = '\n'
  | .blockComment _, cs | .escape _, cs | .verbatim, cs => cs = []

theorem next_of_goesOnAsCode {m : Mode} {c : Char} {cs : List Char} (goesOn : m.GoesOnAsCode (c :: cs)) :
    m.next c = ofCode c ∨ (c = '$' ∧ m.next c = .atDollar ∧ cs.head? ≠ some '"') := by
  cases m with
  | code => exact .inl rfl
  | atSign =>
    obtain ⟨noQuote, noDollar⟩ := goesOn
    have plain : c ≠ '"' := by rintro rfl; exact noQuote rfl
    by_cases dollar : c = '$'
    · subst dollar
      refine .inr ⟨rfl, rfl, fun quote => ?_⟩
      obtain ⟨more, rfl⟩ := List.head?_eq_some_iff.mp quote
      exact noDollar more rfl
    · exact .inl (by simp [next, plain, dollar])
  | atDollar =>
    have plain : c ≠ '"' := by rintro rfl; exact goesOn rfl
    exact .inl (by simp [next, plain])
  | verbatimQuote =>
    have plain : c ≠ '"' := by rintro rfl; exact goesOn rfl
    exact .inl (by simp [next, plain])
  | slash =>
    obtain ⟨noSlash, noStar⟩ := goesOn
    have single : c ≠ '/' := by rintro rfl; exact noSlash rfl
    have plain : c ≠ '*' := by rintro rfl; exact noStar rfl
    exact .inl (by simp [next, single, plain])
  | lineComment =>
    obtain rfl := goesOn c rfl
    exact .inl rfl
  | literal quote =>
    obtain rfl := goesOn c rfl
    exact .inl (by simp [next, ofCode])
  | blockComment _ => exact absurd goesOn (List.cons_ne_nil c cs)
  | escape _ => exact absurd goesOn (List.cons_ne_nil c cs)
  | verbatim => exact absurd goesOn (List.cons_ne_nil c cs)

theorem next_of_goesOnAsCode_of_ne {m : Mode} {c : Char} {cs : List Char}
    (goesOn : m.GoesOnAsCode (c :: cs)) (noDollar : c ≠ '$') : m.next c = ofCode c := by
  rcases next_of_goesOnAsCode goesOn with plain | ⟨dollar, -⟩
  · exact plain
  · exact absurd dollar noDollar

/-- What the program says of a place in this mode: at the end of the text a block comment is not open. -/
def answer (m : Mode) (rest : List Char) : Bool := m.isInside rest && !(m.isBlockComment && rest.isEmpty)

end Mode

/-- The pieces of a text agree with the modes of its places, the first place aside, whatever was read
before the text. -/
def Agrees (cs : List Char) : Prop :=
  ∀ (offset : Nat) {m : Mode} {before rest : List Char} {caret : Nat}, cs = before ++ rest → before ≠ [] →
    m.GoesOnAsCode cs → m.isUnbroken before = true → FallsBetween caret before rest →
    containedIn offset (pieces cs) (offset + caret) = (m.run before).answer rest

/-- Behind the whole of a piece its region is passed. -/
theorem containedIn_beyond (p : Piece) (ps : List Piece) (offset : Nat) {caret : Nat} {beyond rest : List Char}
    (falls : FallsBetween caret (p.text ++ beyond) rest) (nonempty : beyond ≠ [] ∨ p.kind = some .blockComment) :
    containedIn offset (p :: ps) (offset + caret) =
      containedIn (offset + utf8Length p.text) ps (offset + utf8Length p.text + (caret - utf8Length p.text)) := by
  have le := falls.behind.1
  have passed : (p.kind.any fun kind => Region.contains ⟨kind, offset, offset + utf8Length p.text⟩ (offset + caret)) =
      false := by
    rcases nonempty with more | block
    · have lower := falls.le
      have positive : 0 < utf8Length beyond := by
        obtain ⟨c, later, rfl⟩ := List.exists_cons_of_ne_nil more
        have := c.utf8Size_pos
        rw [utf8Length_cons]
        omega
      rw [utf8Length_append] at lower
      cases p.kind with
      | none => rfl
      | some kind => cases kind <;> simp [Region.contains] <;> omega
    · simp only [block, Option.any_some, Region.contains, Bool.and_eq_false_iff, decide_eq_false_iff_not]
      omega
  rw [containedIn_cons, passed, Bool.false_or]
  congr 1
  omega

theorem run_lineComment {body : List Char} (sameLine : ∀ c ∈ body, c ≠ '\n') :
    Mode.lineComment.run body = .lineComment := by
  induction body with
  | nil => rfl
  | cons c body ih =>
    have here : c ≠ '\n' := sameLine c (by simp)
    rw [Mode.run_cons, Mode.next, if_neg here, ih fun d inside => sameLine d (by simp [inside])]

theorem head?_dropWhile_lineBreak (cs : List Char) : ∀ c ∈ (cs.dropWhile (· ≠ '\n')).head?, c = '\n' := by
  intro c first
  have := List.head?_dropWhile_not (· ≠ '\n') cs
  rw [Option.mem_def.mp first] at this
  simpa using this

/-- A place behind the first character of a comment is inside it when every place in its body is. -/
theorem answer_of_comment {m : Mode} {mark : Char} {body before mid rest : List Char}
    (begins : m.next '/' = .slash) (opens : mark = '/' ∨ mark = '*')
    (comment : '/' :: mark :: body = before ++ mid) (nonempty : before ≠ [])
    (inBody : ∀ front, body = front ++ mid → ((Mode.slash.next mark).run front).answer (mid ++ rest) = true) :
    (m.run before).answer (mid ++ rest) = true := by
  rcases List.cons_eq_append_iff.mp comment with ⟨rfl, -⟩ | ⟨front, rfl, tail⟩
  · exact absurd rfl nonempty
  rcases List.cons_eq_append_iff.mp tail with ⟨rfl, rfl⟩ | ⟨front, rfl, split⟩
  · rw [Mode.run_cons, begins]
    rcases opens with rfl | rfl <;> rfl
  · rw [Mode.run_cons, begins, Mode.run_cons]
    exact inBody front split

theorem FallsBetween.pos {caret : Nat} {before rest : List Char} (falls : FallsBetween caret before rest)
    (nonempty : before ≠ []) : 0 < caret := by
  obtain ⟨c, front, rfl⟩ := List.exists_cons_of_ne_nil nonempty
  have le := falls.le
  have positive := c.utf8Size_pos
  rw [utf8Length_cons] at le
  omega

theorem agrees_lineComment {rest : List Char} (ih : Agrees (rest.dropWhile (· ≠ '\n'))) :
    Agrees ('/' :: '/' :: rest) := by
  intro offset m before later caret whole nonempty goesOn unbroken falls
  have begins : m.next '/' = .slash := Mode.next_of_goesOnAsCode_of_ne goesOn (by decide)
  have sameLine : ∀ c ∈ rest.takeWhile (· ≠ '\n'), c ≠ '\n' := by
    intro c inside
    simpa using List.all_eq_true.mp List.all_takeWhile c inside
  have lineBreak := head?_dropWhile_lineBreak rest
  have parts : '/' :: '/' :: rest.takeWhile (· ≠ '\n') ++ rest.dropWhile (· ≠ '\n') = before ++ later := by
    rw [← whole, List.cons_append, List.cons_append, List.takeWhile_append_dropWhile]
  rw [pieces]
  rcases append_eq_append_cases parts with ⟨mid, comment, rfl⟩ | ⟨beyond, more, rfl, behind⟩
  · have answer : (m.run before).answer (mid ++ rest.dropWhile (· ≠ '\n')) = true := by
      refine answer_of_comment begins (.inl rfl) comment nonempty fun front split => ?_
      have read : Mode.lineComment.run front = .lineComment :=
        run_lineComment fun c inside => sameLine c (by rw [split]; simp [inside])
      change (Mode.lineComment.run front).answer _ = true
      rw [read]
      rfl
    have lower := falls.pos nonempty
    have upper := falls.le_of_append fun c first => by rw [lineBreak c first]; rfl
    rw [answer, containedIn_cons, comment]
    simp only [Option.any_some, Region.contains, Bool.or_eq_true, Bool.and_eq_true, decide_eq_true_eq]
    exact .inl ⟨by omega, by omega⟩
  · have passed : m.run ('/' :: '/' :: rest.takeWhile (· ≠ '\n')) = .lineComment := by
      rw [Mode.run_cons, begins, Mode.run_cons]
      exact run_lineComment sameLine
    rw [containedIn_beyond _ _ _ falls (.inl more), Mode.run_append, passed]
    rw [Mode.isUnbroken_append, passed] at unbroken
    exact ih _ behind more lineBreak unbroken.2 falls.behind.2

/-- In the body of a block comment, its last character aside, the comment is open; behind its body it is
closed, or nothing follows. -/
theorem run_blockBody (cs : List Char) (behindStar : Bool) (apart : behindStar = true → cs.head? ≠ some '/') :
    (∀ front mid, (blockBody cs).1 = front ++ mid → mid ≠ [] →
        ∃ star, (Mode.blockComment behindStar).run front = .blockComment star) ∧
      ((Mode.blockComment behindStar).run (blockBody cs).1 = .code ∨
        (∃ star, (Mode.blockComment behindStar).run (blockBody cs).1 = .blockComment star) ∧
          (blockBody cs).2 = []) := by
  fun_induction blockBody cs generalizing behindStar with
  | case1 =>
    refine ⟨fun front mid none nonempty => ?_, .inr ⟨⟨behindStar, rfl⟩, rfl⟩⟩
    exact absurd (List.append_eq_nil_iff.mp none.symm).2 nonempty
  | case2 rest =>
    have star : (Mode.blockComment behindStar).next '*' = .blockComment true := by simp [Mode.next]
    refine ⟨fun front mid split nonempty => ?_, .inl (by rw [Mode.run_cons, star]; rfl)⟩
    rcases List.cons_eq_append_iff.mp split with ⟨rfl, -⟩ | ⟨front, rfl, tail⟩
    · exact ⟨behindStar, rfl⟩
    rcases List.cons_eq_append_iff.mp tail with ⟨rfl, -⟩ | ⟨front, rfl, ended⟩
    · exact ⟨true, star⟩
    · exact absurd (List.append_eq_nil_iff.mp ended.symm).2 nonempty
  | case3 c rest other body later read ih =>
    have goesOn : ¬ (behindStar = true ∧ c = '/') := by
      rintro ⟨star, rfl⟩
      exact apart star rfl
    have next : (Mode.blockComment behindStar).next c = .blockComment (c == '*') := by
      rw [Mode.next, if_neg goesOn]
    have noEnd : (c == '*') = true → rest.head? ≠ some '/' := by
      intro star slash
      obtain ⟨more, rfl⟩ := List.head?_eq_some_iff.mp slash
      exact other more (beq_iff_eq.mp star) rfl
    obtain ⟨within, behind⟩ := ih _ noEnd
    rw [read] at within behind
    refine ⟨fun front mid split nonempty => ?_, by rw [Mode.run_cons, next]; exact behind⟩
    rcases List.cons_eq_append_iff.mp split with ⟨rfl, -⟩ | ⟨front, rfl, tail⟩
    · exact ⟨behindStar, rfl⟩
    · rw [Mode.run_cons, next]
      exact within front mid tail nonempty

theorem Mode.answer_blockComment {m : Mode} {star : Bool} {rest : List Char} (inComment : m = .blockComment star) :
    m.answer rest = !rest.isEmpty := by
  subst inComment
  cases rest <;> rfl

theorem agrees_blockComment {rest : List Char} (ih : Agrees (blockBody rest).2) :
    Agrees ('/' :: '*' :: rest) := by
  intro offset m before later caret whole nonempty goesOn unbroken falls
  have begins : m.next '/' = .slash := Mode.next_of_goesOnAsCode_of_ne goesOn (by decide)
  obtain ⟨within, behindBody⟩ := run_blockBody rest false (by simp)
  have passed : m.run ('/' :: '*' :: (blockBody rest).1) = (Mode.blockComment false).run (blockBody rest).1 := by
    rw [Mode.run_cons, begins, Mode.run_cons]
    rfl
  have parts : '/' :: '*' :: (blockBody rest).1 ++ (blockBody rest).2 = before ++ later := by
    rw [← whole, List.cons_append, List.cons_append, blockBody_append]
  rw [pieces]
  rcases append_eq_append_cases parts with ⟨mid, comment, rfl⟩ | ⟨beyond, more, rfl, behind⟩
  · by_cases atEnd : mid = []
    · -- at the end of the comment no region contains the place, whether the comment was closed or not
      subst atEnd
      rw [List.append_nil] at comment
      have falls' : FallsBetween caret (('/' :: '*' :: (blockBody rest).1) ++ []) (blockBody rest).2 := by
        rw [List.append_nil, comment]
        exact falls
      rw [containedIn_beyond _ _ _ falls' (.inr rfl), containedIn_pieces_start falls'.behind.2, ← comment, passed]
      rcases behindBody with closed | ⟨⟨star, unclosed⟩, nothing⟩
      · rw [closed]
        rfl
      · rw [Mode.answer_blockComment unclosed, nothing]
        rfl
    · have answer : (m.run before).answer (mid ++ (blockBody rest).2) = true := by
        refine answer_of_comment begins (.inr rfl) comment nonempty fun front split => ?_
        obtain ⟨star, inComment⟩ := within front mid split atEnd
        change ((Mode.blockComment false).run front).answer _ = true
        rw [Mode.answer_blockComment inComment]
        simp [atEnd]
      have lower := falls.pos nonempty
      have upper := falls.lt_of_append atEnd
      rw [answer, containedIn_cons, comment]
      simp only [Option.any_some, Region.contains, Bool.or_eq_true, Bool.and_eq_true, decide_eq_true_eq]
      exact .inl ⟨by omega, by omega⟩
  · rw [containedIn_beyond _ _ _ falls (.inl more), Mode.run_append, passed]
    rw [Mode.isUnbroken_append, passed] at unbroken
    rcases behindBody with closed | ⟨-, nothing⟩
    · rw [closed] at unbroken ⊢
      exact ih _ behind more trivial unbroken.2 falls.behind.2
    · rw [nothing] at behind
      exact absurd (List.append_eq_nil_iff.mp behind.symm).1 more

theorem containedIn_codes (offset : Nat) (cs : List Char) (ps : List Piece) (caret : Nat) :
    containedIn offset (cs.map code ++ ps) caret = containedIn (offset + utf8Length cs) ps caret := by
  induction cs generalizing offset with
  | nil => rfl
  | cons c cs ih =>
    have next : offset + c.utf8Size + utf8Length cs = offset + utf8Length (c :: cs) := by
      rw [utf8Length_cons]
      omega
    rw [List.map_cons, List.cons_append, containedIn_code, ih, next]

/-- A body is read from the mode behind its opening quote, up to its closing quote or its line break. -/
structure ReadsLiteral (quote : Char) (m : Mode) (body later : List Char) : Prop where
  inBody : ∀ front mid, body = front ++ mid → m.isUnbroken front = true → (m.run front).answer (mid ++ later) = true
  narrow : ∀ c ∈ later.head?, c.utf8Size = 1
  closed : ∀ more, later = quote :: more → m.isUnbroken body = true →
    ((m.run body).next quote).GoesOnAsCode more ∧ ((m.run body).next quote).answer more = false
  unclosed : ∀ c more, later = c :: more → c ≠ quote → m.isUnbroken body = true → (m.run body).GoesOnAsCode later

theorem ordinaryBody_head? (quote : Char) (cs : List Char) :
    ∀ c ∈ (ordinaryBody quote cs).2.head?, c = quote ∨ c = '\n' := by
  fun_induction ordinaryBody quote cs with
  | case4 c rest _ _ stops =>
    intro d first
    obtain rfl := Option.some.inj first
    exact stops
  | _ => simp_all

/-- In the body of a literal that is not verbatim the literal is open, and what ends it is not behind a
backslash. -/
theorem run_ordinaryBody (quote : Char) (cs : List Char) :
    (∀ front mid, (ordinaryBody quote cs).1 = front ++ mid → (Mode.literal quote).isUnbroken front = true →
        (Mode.literal quote).run front = .literal quote ∨ (Mode.literal quote).run front = .escape quote) ∧
      ((ordinaryBody quote cs).2 ≠ [] → (Mode.literal quote).isUnbroken (ordinaryBody quote cs).1 = true →
        (Mode.literal quote).run (ordinaryBody quote cs).1 = .literal quote) := by
  fun_induction ordinaryBody quote cs with
  | case1 =>
    refine ⟨fun front mid none _ => .inl ?_, fun nonempty => absurd rfl nonempty⟩
    rw [(List.append_eq_nil_iff.mp none.symm).1]
    rfl
  | case2 =>
    refine ⟨fun front mid split _ => ?_, fun nonempty => absurd rfl nonempty⟩
    rcases List.cons_eq_append_iff.mp split with ⟨rfl, -⟩ | ⟨front, rfl, tail⟩
    · exact .inl rfl
    · rw [(List.append_eq_nil_iff.mp tail.symm).1]
      exact .inr rfl
  | case3 c rest body later read ih =>
    rw [read] at ih
    have escaped {front : List Char} (unbroken : (Mode.literal quote).isUnbroken ('\\' :: c :: front) = true) :
        (Mode.escape quote).next c = .literal quote ∧ (Mode.literal quote).isUnbroken front = true := by
      obtain ⟨here, tail⟩ := Mode.isUnbroken_cons.mp (Mode.isUnbroken_cons.mp unbroken).2
      have sameLine : c ≠ '\n' := fun lineBreak => here ⟨rfl, lineBreak⟩
      have goesOn : (Mode.escape quote).next c = .literal quote := by rw [Mode.next, if_neg sameLine]
      change ((Mode.escape quote).next c).isUnbroken front = true at tail
      rw [goesOn] at tail
      exact ⟨goesOn, tail⟩
    refine ⟨fun front mid split unbroken => ?_, fun nonempty unbroken => ?_⟩
    · rcases List.cons_eq_append_iff.mp split with ⟨rfl, -⟩ | ⟨front, rfl, tail⟩
      · exact .inl rfl
      rcases List.cons_eq_append_iff.mp tail with ⟨rfl, -⟩ | ⟨front, rfl, bodySplit⟩
      · exact .inr rfl
      · obtain ⟨goesOn, unbroken⟩ := escaped unbroken
        change ((Mode.escape quote).next c).run front = _ ∨ ((Mode.escape quote).next c).run front = _
        rw [goesOn]
        exact ih.1 front mid bodySplit unbroken
    · obtain ⟨goesOn, unbroken⟩ := escaped unbroken
      change ((Mode.escape quote).next c).run body = _
      rw [goesOn]
      exact ih.2 nonempty unbroken
  | case4 c rest _ _ stops =>
    refine ⟨fun front mid none _ => .inl ?_, fun _ _ => rfl⟩
    rw [(List.append_eq_nil_iff.mp none.symm).1]
    rfl
  | case5 c rest noEnd noEscape goesOn body later read ih =>
    rw [read] at ih
    have plain : c ≠ '\\' := by
      rintro rfl
      cases rest with
      | nil => exact noEnd rfl rfl
      | cons d rest => exact noEscape d rest rfl rfl
    have next : (Mode.literal quote).next c = .literal quote := by rw [Mode.next, if_neg plain, if_neg goesOn]
    refine ⟨fun front mid split unbroken => ?_, fun nonempty unbroken => ?_⟩
    · rcases List.cons_eq_append_iff.mp split with ⟨rfl, -⟩ | ⟨front, rfl, tail⟩
      · exact .inl rfl
      · rw [Mode.isUnbroken_cons, next] at unbroken
        rw [Mode.run_cons, next]
        exact ih.1 front mid tail unbroken.2
    · rw [Mode.isUnbroken_cons, next] at unbroken
      rw [Mode.run_cons, next]
      exact ih.2 nonempty unbroken.2

theorem readsLiteral_ordinary {quote : Char} (isQuote : quote = '"' ∨ quote = '\'') (cs : List Char) :
    ReadsLiteral quote (.literal quote) (ordinaryBody quote cs).1 (ordinaryBody quote cs).2 := by
  obtain ⟨within, atEnd⟩ := run_ordinaryBody quote cs
  have ends := ordinaryBody_head? quote cs
  refine ⟨fun front mid split unbroken => ?_, fun c first => ?_, fun more split unbroken => ?_,
    fun c more split other unbroken => ?_⟩
  · rcases within front mid split unbroken with inside | inside <;> rw [inside] <;> rfl
  · rcases ends c first with rfl | rfl
    · rcases isQuote with rfl | rfl <;> rfl
    · rfl
  · rw [atEnd (by simp [split]) unbroken]
    have closes : (Mode.literal quote).next quote = .code := by
      have plain : quote ≠ '\\' := by rcases isQuote with rfl | rfl <;> decide
      simp [Mode.next, plain]
    rw [closes]
    exact ⟨trivial, rfl⟩
  · rw [atEnd (by simp [split]) unbroken, split]
    intro d first
    obtain rfl := Option.some.inj first
    exact (ends c (by simp [split])).resolve_left other

/-- In the body of a verbatim string the string is open, and what ends it is a quote that is not doubled. -/
theorem run_verbatimBody (cs : List Char) :
    (∀ front mid, (verbatimBody cs).1 = front ++ mid →
        Mode.verbatim.run front = .verbatim ∨
          (Mode.verbatim.run front = .verbatimQuote ∧ mid.head? = some '"')) ∧
      ((verbatimBody cs).2 = [] ∨
        ∃ more, (verbatimBody cs).2 = '"' :: more ∧ more.head? ≠ some '"' ∧
          Mode.verbatim.run (verbatimBody cs).1 = .verbatim) := by
  fun_induction verbatimBody cs with
  | case1 =>
    refine ⟨fun front mid none => .inl ?_, .inl rfl⟩
    rw [(List.append_eq_nil_iff.mp none.symm).1]
    rfl
  | case2 rest body later read ih =>
    rw [read] at ih
    refine ⟨fun front mid split => ?_, ih.2⟩
    rcases List.cons_eq_append_iff.mp split with ⟨rfl, -⟩ | ⟨front, rfl, tail⟩
    · exact .inl rfl
    rcases List.cons_eq_append_iff.mp tail with ⟨rfl, rfl⟩ | ⟨front, rfl, bodySplit⟩
    · exact .inr ⟨rfl, rfl⟩
    · exact ih.1 front mid bodySplit
  | case3 rest single =>
    refine ⟨fun front mid none => .inl ?_, .inr ⟨rest, rfl, fun quote => ?_, rfl⟩⟩
    · rw [(List.append_eq_nil_iff.mp none.symm).1]
      rfl
    · obtain ⟨more, rfl⟩ := List.head?_eq_some_iff.mp quote
      exact single more rfl rfl
  | case4 c rest _ goesOn body later read ih =>
    rw [read] at ih
    have next : Mode.verbatim.next c = .verbatim := by rw [Mode.next, if_neg goesOn]
    refine ⟨fun front mid split => ?_, by rw [Mode.run_cons, next]; exact ih.2⟩
    rcases List.cons_eq_append_iff.mp split with ⟨rfl, -⟩ | ⟨front, rfl, tail⟩
    · exact .inl rfl
    · rw [Mode.run_cons, next]
      exact ih.1 front mid tail

theorem readsLiteral_verbatim (cs : List Char) :
    ReadsLiteral '"' .verbatim (verbatimBody cs).1 (verbatimBody cs).2 := by
  obtain ⟨within, atEnd⟩ := run_verbatimBody cs
  refine ⟨fun front mid split _ => ?_, fun c first => ?_, fun more split _ => ?_,
    fun c more split other _ => ?_⟩
  · rcases within front mid split with inside | ⟨inside, doubled⟩
    · rw [inside]
      rfl
    · rw [inside, Mode.answer, Mode.isInside, List.head?_append, doubled]
      rfl
  · rcases atEnd with none | ⟨more, quote, -, -⟩
    · simp [none] at first
    · rw [quote] at first
      obtain rfl := Option.some.inj first
      rfl
  · rcases atEnd with none | ⟨others, quote, single, inside⟩
    · simp [none] at split
    · obtain rfl := (List.cons.inj (quote.symm.trans split)).2
      rw [inside]
      exact ⟨single, by simp [Mode.next, Mode.answer, Mode.isInside, single]⟩
  · rcases atEnd with none | ⟨others, quote, -, -⟩
    · simp [none] at split
    · exact absurd (List.cons.inj (split.symm.trans quote)).1 other

/-- The first piece of a literal is its body. -/
theorem exists_literalPieces_eq_cons (quote : Char) (body later : List Char) :
    ∃ others, (literalPieces quote body later).1 = ⟨some .literal, body⟩ :: others := by
  unfold literalPieces
  split
  · exact ⟨_, rfl⟩
  · split
    · exact ⟨_, rfl⟩
    · exact ⟨_, rfl⟩

variable {quote : Char} {m : Mode} {body later : List Char}

/-- The places behind the opening quote of a literal, those behind its end included. -/
theorem containedIn_literalPieces (reads : ReadsLiteral quote m body later)
    (ih : Agrees (literalPieces quote body later).2) {before rest : List Char} {caret : Nat}
    (parts : body ++ later = before ++ rest) (unbroken : m.isUnbroken before = true)
    (falls : FallsBetween caret before rest) (offset : Nat) :
    containedIn offset ((literalPieces quote body later).1 ++ pieces (literalPieces quote body later).2)
      (offset + caret) = (m.run before).answer rest := by
  rcases append_eq_append_cases parts with ⟨mid, rfl, rfl⟩ | ⟨beyond, more, rfl, rfl⟩
  · obtain ⟨others, first⟩ := exists_literalPieces_eq_cons quote (before ++ mid) later
    have upper := falls.le_of_append reads.narrow
    rw [reads.inBody before mid rfl unbroken, first, List.cons_append, containedIn_cons]
    simp only [Option.any_some, Region.contains, Bool.or_eq_true, Bool.and_eq_true, decide_eq_true_eq]
    exact .inl ⟨by omega, by omega⟩
  · obtain ⟨unbrokenBody, unbrokenBeyond⟩ := Mode.isUnbroken_append.mp unbroken
    obtain ⟨c, beyond, rfl⟩ := List.exists_cons_of_ne_nil more
    have passed (ps : List Piece) :=
      containedIn_beyond ⟨some .literal, body⟩ ps offset falls (.inl more)
    rw [Mode.run_append]
    by_cases closes : c = quote
    · subst closes
      obtain ⟨goesOn, outside⟩ := reads.closed _ rfl unbrokenBody
      simp only [literalPieces, List.cons_append, if_true] at ih ⊢
      rw [passed, List.nil_append, containedIn_code]
      have behind : FallsBetween caret ((body ++ [c]) ++ beyond) rest := by simpa using falls
      obtain ⟨le, behind⟩ := behind.behind
      rw [utf8Length_append, utf8Length_cons, utf8Length_nil, Nat.add_zero] at le behind
      have place : offset + utf8Length body + (caret - utf8Length body) =
          offset + utf8Length body + c.utf8Size + (caret - (utf8Length body + c.utf8Size)) := by omega
      rw [place, Mode.run_cons]
      by_cases atEnd : beyond = []
      · subst atEnd
        exact (containedIn_pieces_start behind _).trans outside.symm
      · exact ih _ rfl atEnd goesOn (Mode.isUnbroken_cons.mp unbrokenBeyond).2 behind
    · have goesOn := reads.unclosed c _ rfl closes unbrokenBody
      simp only [literalPieces, List.cons_append, if_neg closes] at ih ⊢
      rw [passed]
      exact ih _ rfl more goesOn unbrokenBeyond falls.behind.2

/-- A text that begins with the opening quote of a literal, or with the signs that make it verbatim. -/
theorem agrees_literal (opening : List Char) (reads : ReadsLiteral quote m body later)
    (ih : Agrees (literalPieces quote body later).2)
    (split : pieces (opening ++ (body ++ later)) = opening.map code ++
      ((literalPieces quote body later).1 ++ pieces (literalPieces quote body later).2))
    (opens : ∀ n : Mode, n.GoesOnAsCode (opening ++ (body ++ later)) → n.run opening = m ∧
      ∀ front mid, opening = front ++ mid → front ≠ [] → mid ≠ [] →
        (n.run front).answer (mid ++ (body ++ later)) = false) :
    Agrees (opening ++ (body ++ later)) := by
  intro offset n before rest caret whole nonempty goesOn unbroken falls
  obtain ⟨opened, within⟩ := opens n goesOn
  rw [split, containedIn_codes]
  by_cases short : utf8Length opening ≤ utf8Length before
  · obtain ⟨behind, rfl, parts⟩ := append_eq_append_of_le whole short
    obtain ⟨le, falls⟩ := falls.behind
    have place : offset + caret = offset + utf8Length opening + (caret - utf8Length opening) := by omega
    rw [Mode.isUnbroken_append, opened] at unbroken
    rw [place, Mode.run_append, opened]
    exact containedIn_literalPieces reads ih parts unbroken.2 falls _
  · obtain ⟨mid, rfl, rfl⟩ := append_eq_append_of_le whole.symm (by omega)
    have nonemptyMid : mid ≠ [] := by
      rintro rfl
      simp at short
    rw [within before mid rfl nonempty nonemptyMid]
    have early := falls.lt_of_append nonemptyMid
    exact containedIn_of_lt _ (by omega)

theorem agrees_ordinary {c : Char} {rest : List Char} (isQuote : c = '"' ∨ c = '\'')
    (split : pieces (c :: rest) = code c ::
      ((literalPieces c (ordinaryBody c rest).1 (ordinaryBody c rest).2).1 ++
        pieces (literalPieces c (ordinaryBody c rest).1 (ordinaryBody c rest).2).2))
    (ih : Agrees (literalPieces c (ordinaryBody c rest).1 (ordinaryBody c rest).2).2) :
    Agrees (c :: rest) := by
  have agrees := agrees_literal [c] (readsLiteral_ordinary isQuote rest) ih
  rw [ordinaryBody_append] at agrees
  refine agrees split fun n goesOn => ⟨?_, fun front mid parts nonempty more => ?_⟩
  · have noDollar : c ≠ '$' := by rcases isQuote with rfl | rfl <;> decide
    rw [Mode.run_cons, Mode.run_nil, Mode.next_of_goesOnAsCode_of_ne goesOn noDollar]
    rcases isQuote with rfl | rfl <;> rfl
  · rcases List.singleton_eq_append_iff.mp parts with ⟨none, -⟩ | ⟨-, none⟩
    · exact absurd none nonempty
    · exact absurd none more

theorem agrees_verbatim (opening : List Char) {rest : List Char}
    (signs : opening = ['@', '"'] ∨ opening = ['@', '$', '"'])
    (split : pieces (opening ++ rest) = opening.map code ++
      ((literalPieces '"' (verbatimBody rest).1 (verbatimBody rest).2).1 ++
        pieces (literalPieces '"' (verbatimBody rest).1 (verbatimBody rest).2).2))
    (ih : Agrees (literalPieces '"' (verbatimBody rest).1 (verbatimBody rest).2).2) :
    Agrees (opening ++ rest) := by
  have agrees := agrees_literal opening (readsLiteral_verbatim rest) ih
  rw [verbatimBody_append] at agrees
  refine agrees split fun n goesOn => ?_
  have begins : n.next '@' = .atSign := by
    rcases signs with rfl | rfl <;> exact Mode.next_of_goesOnAsCode_of_ne goesOn (by decide)
  have behind {front : List Char} {tail : Char} {mid : List Char} (parts : [tail] = front ++ mid) (more : mid ≠ []) :
      front = [] := by
    rcases List.singleton_eq_append_iff.mp parts with ⟨none, -⟩ | ⟨-, none⟩
    · exact none
    · exact absurd none more
  rcases signs with rfl | rfl
  · refine ⟨by rw [Mode.run_cons, begins]; rfl, fun front mid parts nonempty more => ?_⟩
    rcases List.cons_eq_append_iff.mp parts with ⟨none, -⟩ | ⟨front, rfl, quote⟩
    · exact absurd none nonempty
    · rw [behind quote more, Mode.run_cons, begins]
      rfl
  · refine ⟨by rw [Mode.run_cons, begins]; rfl, fun front mid parts nonempty more => ?_⟩
    rcases List.cons_eq_append_iff.mp parts with ⟨none, -⟩ | ⟨front, rfl, tail⟩
    · exact absurd none nonempty
    · rcases List.cons_eq_append_iff.mp tail with ⟨rfl, -⟩ | ⟨front, rfl, quote⟩
      · rw [Mode.run_cons, begins]
        rfl
      · rw [behind quote more, Mode.run_cons, begins]
        rfl

/-- A character with which no comment and no literal begins. -/
theorem agrees_code {c : Char} {rest : List Char} (split : pieces (c :: rest) = code c :: pieces rest)
    (comment : ∀ more, c = '/' → rest = '/' :: more → False)
    (block : ∀ more, c = '/' → rest = '*' :: more → False)
    (verbatim : ∀ more, c = '@' → rest = '"' :: more → False)
    (dollar : ∀ more, c = '@' → rest = '$' :: '"' :: more → False) (noQuote : ¬ (c = '"' ∨ c = '\''))
    (ih : Agrees rest) : Agrees (c :: rest) := by
  intro offset m before later caret whole nonempty goesOn unbroken falls
  obtain ⟨d, front, rfl⟩ := List.exists_cons_of_ne_nil nonempty
  obtain ⟨rfl, tail⟩ := List.cons.inj whole
  have next : (m.next c).GoesOnAsCode rest ∧ (m.next c).answer rest = false := by
    rcases Mode.next_of_goesOnAsCode goesOn with plain | ⟨-, sign, noQuote⟩
    · rw [plain, Mode.ofCode]
      split_ifs with slash sign
      · have noSlash : rest.head? ≠ some '/' := fun first => by
          obtain ⟨more, begins⟩ := List.head?_eq_some_iff.mp first
          exact comment more slash begins
        have noStar : rest.head? ≠ some '*' := fun first => by
          obtain ⟨more, begins⟩ := List.head?_eq_some_iff.mp first
          exact block more slash begins
        exact ⟨⟨noSlash, noStar⟩, by simp [Mode.answer, Mode.isInside, noSlash, noStar]⟩
      · refine ⟨⟨fun first => ?_, fun more begins => dollar more sign begins⟩, rfl⟩
        obtain ⟨more, begins⟩ := List.head?_eq_some_iff.mp first
        exact verbatim more sign begins
      · exact ⟨trivial, rfl⟩
    · rw [sign]
      exact ⟨noQuote, rfl⟩
  have behind : FallsBetween caret ([c] ++ front) later := falls
  obtain ⟨le, behind⟩ := behind.behind
  rw [utf8Length_cons, utf8Length_nil, Nat.add_zero] at le behind
  have place : offset + caret = offset + c.utf8Size + (caret - c.utf8Size) := by omega
  rw [split, containedIn_code, place, Mode.run_cons]
  by_cases atStart : front = []
  · subst atStart
    obtain rfl : rest = later := tail
    exact (containedIn_pieces_start behind _).trans next.2.symm
  · exact ih _ tail atStart next.1 (Mode.isUnbroken_cons.mp unbroken).2 behind

theorem agrees (cs : List Char) : Agrees cs := by
  fun_induction pieces cs with
  | case1 =>
    intro _ _ before _ _ whole nonempty
    exact absurd (List.append_eq_nil_iff.mp whole.symm).1 nonempty
  | case2 rest ih => exact agrees_lineComment ih
  | case3 rest ih => exact agrees_blockComment ih
  | case4 rest read ih =>
    have split : pieces ('@' :: '"' :: rest) = ['@', '"'].map code ++ (read.1 ++ pieces read.2) := by
      rw [pieces]
      rfl
    exact agrees_verbatim ['@', '"'] (.inl rfl) split ih
  | case5 rest read ih =>
    have split : pieces ('@' :: '$' :: '"' :: rest) = ['@', '$', '"'].map code ++ (read.1 ++ pieces read.2) := by
      rw [pieces]
      rfl
    exact agrees_verbatim ['@', '$', '"'] (.inr rfl) split ih
  | case6 c rest comment block verbatim dollar isQuote read ih =>
    exact agrees_ordinary isQuote (by rw [pieces.eq_6 _ _ comment block verbatim dollar, if_pos isQuote]; rfl) ih
  | case7 c rest comment block verbatim dollar noQuote ih =>
    exact agrees_code (by rw [pieces.eq_6 _ _ comment block verbatim dollar, if_neg noQuote]) comment block verbatim
      dollar noQuote ih

/-- Whether a caret is found to be in a comment or a literal can be told from what stands before it,
unless a line break was taken into a literal. -/
theorem inCommentOrLiteral_eq_answer {source : List Char} {caret : Nat} (within : caret ≤ utf8Length source)
    (unbroken : Mode.code.isUnbroken (upTo caret source) = true) :
    inCommentOrLiteral source caret = (modeAfter (upTo caret source)).answer (after caret source) := by
  have falls := fallsBetween_upTo within
  have whole := upTo_append_after caret source
  have start : inCommentOrLiteral source caret = containedIn 0 (pieces source) (0 + caret) := by
    rw [Nat.zero_add]
    rfl
  rw [start]
  by_cases atStart : upTo caret source = []
  · rw [atStart, List.nil_append] at whole
    rw [atStart, whole] at falls
    rw [containedIn_pieces_start falls, atStart]
    rfl
  · exact agrees source 0 whole.symm atStart trivial unbroken falls

end Typeahead.Source
