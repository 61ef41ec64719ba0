import Mathlib.Data.List.Induction
import Mathlib.Tactic.SplitIfs

namespace Typeahead.Source

/-- How the character at a place is read, as far as the text before the place decides it. -/
inductive Mode where
  | code
  /-- Behind an at sign, with which a verbatim string may begin. -/
  | atSign
  /-- Behind an at sign and a dollar sign. -/
  | atDollar
  /-- Behind a slash, with which a comment may begin. -/
  | slash
  | lineComment
  /-- In a block comment; directly behind a star of its text or not. -/
  | blockComment (behindStar : Bool)
  /-- In a string or character literal that is not verbatim. -/
  | literal (quote : Char)
  /-- Behind a backslash of such a literal. -/
  | escape (quote : Char)
  | verbatim
  /-- Behind a quote of a verbatim string: its end, unless another quote follows. -/
  | verbatimQuote
  deriving DecidableEq, Repr

namespace Mode

/-- The mode behind a character that is read as code. -/
def ofCode (c : Char) : Mode :=
  if c = '/' then .slash
  else if c = '@' then .atSign
  else if c = '"' ∨ c = '\'' then .literal c
  else .code

/-- The mode behind one more character. A literal that is not verbatim ends at the line break, whatever
stands before it. -/
def next : Mode → Char → Mode
  | .code, c => ofCode c
  | .atSign, c => if c = '"' then .verbatim else if c = '$' then .atDollar else ofCode c
  | .atDollar, c => if c = '"' then .verbatim else ofCode c
  | .slash, c => if c = '/' then .lineComment else if c = '*' then .blockComment false else ofCode c
  | .lineComment, c => if c = '\n' then .code else .lineComment
  | .blockComment behindStar, c =>
    if behindStar = true ∧ c = '/' then .code else .blockComment (c == '*')
  | .literal quote, c =>
    if c = '\\' then .escape quote else if c = quote ∨ c = '\n' then .code else .literal quote
  | .escape quote, c => if c = '\n' then .code else .literal quote
  | .verbatim, c => if c = '"' then .verbatimQuote else .verbatim
  | .verbatimQuote, c => if c = '"' then .verbatim else ofCode c

def run (m : Mode) (cs : List Char) : Mode := cs.foldl next m

@[simp] theorem run_nil (m : Mode) : m.run [] = m := rfl

@[simp] theorem run_cons (m : Mode) (c : Char) (cs : List Char) : m.run (c :: cs) = (m.next c).run cs := rfl

theorem run_append (m : Mode) (a b : List Char) : m.run (a ++ b) = (m.run a).run b := List.foldl_append

/-- No comment or literal is open, and a slash here would be the first of its delimiter. -/
def isOutside : Mode → Bool
  | .code | .atSign | .atDollar | .verbatimQuote => true
  | _ => false

def isBlockComment : Mode → Bool
  | .blockComment _ => true
  | _ => false

theorem isBlockComment_iff {m : Mode} : m.isBlockComment = true ↔ ∃ behindStar, m = .blockComment behindStar := by
  cases m <;> simp [isBlockComment]

/-- A place with this text behind it is inside a comment or a literal. Between the two characters of an
opening delimiter and between the two quotes that stand for one it is inside already. -/
def isInside : Mode → List Char → Bool
  | .code, _ | .atSign, _ | .atDollar, _ => false
  | .slash, rest => rest.head? == some '/' || rest.head? == some '*'
  | .verbatimQuote, rest => rest.head? == some '"'
  | .lineComment, _ | .blockComment _, _ | .literal _, _ | .escape _, _ | .verbatim, _ => true

def isEscape : Mode → Bool
  | .escape _ => true
  | _ => false

/-- No line break stands directly behind a backslash of a literal that is not verbatim. -/
def isUnbroken : Mode → List Char → Bool
  | _, [] => true
  | m, c :: cs => !(m.isEscape && c == '\n') && (m.next c).isUnbroken cs

theorem isUnbroken_cons {m : Mode} {c : Char} {cs : List Char} :
    m.isUnbroken (c :: cs) = true ↔
      ¬ (m.isEscape = true ∧ c = '\n') ∧ (m.next c).isUnbroken cs = true := by
  rw [isUnbroken]
  cases m.isEscape <;> simp

theorem isUnbroken_append {m : Mode} {a b : List Char} :
    m.isUnbroken (a ++ b) = true ↔ m.isUnbroken a = true ∧ (m.run a).isUnbroken b = true := by
  induction a generalizing m with
  | nil => simp [isUnbroken]
  | cons c a ih => simp only [List.cons_append, isUnbroken_cons, ih, run_cons, and_assoc]

theorem next_slash_of_isOutside {m : Mode} (outside : m.isOutside = true) : m.next '/' = .slash := by
  cases m <;> first | rfl | simp [isOutside] at outside

/-- Only a slash of code is behind which a comment may begin. -/
theorem eq_slash_of_next {m : Mode} {c : Char} (begins : m.next c = .slash) :
    c = '/' ∧ m.isOutside = true := by
  cases m <;> simp only [next, ofCode] at begins <;> split_ifs at begins <;> simp_all [isOutside]

/-- A block comment goes on, or it begins with a star behind a slash of code. -/
theorem eq_blockComment_of_next {m : Mode} {c : Char} {behindStar : Bool}
    (inComment : m.next c = .blockComment behindStar) :
    (m = .slash ∧ c = '*' ∧ behindStar = false) ∨
      ∃ before, m = .blockComment before ∧ ¬ (before = true ∧ c = '/') ∧ behindStar = (c == '*') := by
  cases m with
  | slash =>
    simp only [next, ofCode] at inComment
    split_ifs at inComment with _ star
    simp_all
  | blockComment before =>
    simp only [next] at inComment
    split_ifs at inComment with ended
    exact .inr ⟨before, rfl, ended, by simpa using inComment.symm⟩
  | _ => simp only [next, ofCode] at inComment; split_ifs at inComment

/-- The text of a comment that holds no closing delimiter leaves the comment open. -/
theorem run_blockComment {body : List Char} (unclosed : ¬ ['*', '/'] <:+: body) (behindStar : Bool)
    (apart : behindStar = true → body.head? ≠ some '/') :
    ∃ star, (blockComment behindStar).run body = .blockComment star := by
  induction body generalizing behindStar with
  | nil => exact ⟨behindStar, rfl⟩
  | cons c body ih =>
    have goesOn : ¬ (behindStar = true ∧ c = '/') := by
      rintro ⟨star, rfl⟩
      exact apart star rfl
    have later : ¬ ['*', '/'] <:+: body := fun found => unclosed (List.infix_cons found)
    have next : (c == '*') = true → body.head? ≠ some '/' := by
      intro star slash
      obtain ⟨more, rfl⟩ := List.head?_eq_some_iff.mp slash
      rw [beq_iff_eq.mp star] at unclosed
      exact unclosed ⟨[], more, rfl⟩
    rw [run_cons, Mode.next, if_neg goesOn]
    exact ih later _ next

end Mode

/-- What a text leaves open at its end. -/
def modeAfter (before : List Char) : Mode := Mode.code.run before

theorem modeAfter_append (a b : List Char) : modeAfter (a ++ b) = (modeAfter a).run b := Mode.run_append _ a b

/-- A block comment is open at the end of the text: its opening delimiter stands outside of comments and
literals, and no closing one follows. -/
def InBlockComment (before : List Char) : Prop :=
  ∃ front body, before = front ++ '/' :: '*' :: body ∧ (modeAfter front).isOutside = true ∧
    ¬ ['*', '/'] <:+: body

/-- A slash that may begin a comment is the last character of the text. -/
theorem eq_append_of_modeAfter_slash {before : List Char} (slash : modeAfter before = .slash) :
    ∃ front, before = front ++ ['/'] ∧ (modeAfter front).isOutside = true := by
  rcases List.eq_nil_or_concat before with rfl | ⟨front, c, rfl⟩
  · simp [modeAfter] at slash
  · rw [List.concat_eq_append, modeAfter_append, Mode.run_cons, Mode.run_nil] at slash
    obtain ⟨rfl, outside⟩ := Mode.eq_slash_of_next slash
    exact ⟨front, by rw [List.concat_eq_append], outside⟩

/-- Behind a text that leaves a block comment open, with what it says about the comment's last character. -/
theorem inBlockComment_of_modeAfter {before : List Char} {behindStar : Bool}
    (inComment : modeAfter before = .blockComment behindStar) :
    ∃ front body, before = front ++ '/' :: '*' :: body ∧ (modeAfter front).isOutside = true ∧
      ¬ ['*', '/'] <:+: body ∧ behindStar = (body.getLast? == some '*') := by
  induction before using List.reverseRecOn generalizing behindStar with
  | nil => simp [modeAfter] at inComment
  | append_singleton before c ih =>
    rw [modeAfter_append, Mode.run_cons, Mode.run_nil] at inComment
    rcases Mode.eq_blockComment_of_next inComment with ⟨slash, rfl, rfl⟩ | ⟨star, within, goesOn, rfl⟩
    · obtain ⟨front, rfl, outside⟩ := eq_append_of_modeAfter_slash slash
      exact ⟨front, [], by simp, outside, by simp, rfl⟩
    · obtain ⟨front, body, rfl, outside, unclosed, last⟩ := ih within
      refine ⟨front, body ++ [c], by simp, outside, ?_, by simp⟩
      -- a closing delimiter that was not in the text before ends at the new character
      rintro ⟨earlier, later, closes⟩
      rcases List.eq_nil_or_concat later with rfl | ⟨more, d, rfl⟩
      · have parts : earlier ++ ['*'] ++ ['/'] = body ++ [c] := by simpa using closes
        obtain ⟨rfl, slash⟩ := List.append_inj' parts rfl
        exact goesOn ⟨by simp [last], by simpa using slash.symm⟩
      · have parts : earlier ++ ['*', '/'] ++ more ++ [d] = body ++ [c] := by simpa using closes
        obtain ⟨rfl, -⟩ := List.append_inj' parts rfl
        exact unclosed ⟨earlier, more, rfl⟩

theorem modeAfter_eq_blockComment_iff {before : List Char} :
    (∃ behindStar, modeAfter before = .blockComment behindStar) ↔ InBlockComment before := by
  constructor
  · rintro ⟨behindStar, inComment⟩
    obtain ⟨front, body, split, outside, unclosed, -⟩ := inBlockComment_of_modeAfter inComment
    exact ⟨front, body, split, outside, unclosed⟩
  · rintro ⟨front, body, rfl, outside, unclosed⟩
    rw [modeAfter_append, Mode.run_cons, Mode.run_cons, Mode.next_slash_of_isOutside outside]
    exact Mode.run_blockComment unclosed false (by simp)

end Typeahead.Source
