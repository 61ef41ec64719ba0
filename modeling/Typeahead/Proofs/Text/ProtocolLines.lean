import Typeahead.Proofs.Text.Boundary
import Typeahead.Workspace.Document

namespace Typeahead.Text

def isProtocolBreak (c : Char) : Bool := c == '\n' || c == '\r'

/-- A line break that the protocol does not know. -/
def isSeparator (c : Char) : Bool := isLineBreak c && !isProtocolBreak c

/-- The lines with their breaks, where breaks are the characters of some kind. A carriage return and the line
feed after it are one break in any case. -/
def splitLines (breaks : Char → Bool) : List Char → List (List Char)
  | [] => [[]]
  | '\r' :: '\n' :: cs => ['\r', '\n'] :: splitLines breaks cs
  | c :: cs =>
    if breaks c then [c] :: splitLines breaks cs
    else
      match splitLines breaks cs with
      | [] => [[c]]
      | first :: more => (c :: first) :: more

theorem lines_eq_splitLines (cs : List Char) : lines cs = splitLines isLineBreak cs := by
  fun_induction lines cs with
  | case1 => rfl
  | case2 cs ih => rw [splitLines, ih]
  | case3 c cs single here ih => rw [splitLines.eq_3 _ _ _ single, if_pos here, ih]
  | case4 c cs single _ empty ih => exact absurd empty (lines_ne_nil cs)
  | case5 c cs single ordinary first more eq ih =>
    rw [splitLines.eq_3 _ _ _ single, if_neg ordinary, ← ih, eq]

/-- The lines of a text in the protocol. -/
def protocolLines (cs : List Char) : List (List Char) := splitLines isProtocolBreak cs

/-- A line without the line feed or carriage return that ends it. -/
def lineContent (line : List Char) : List Char := line.takeWhile fun c => c ≠ '\n' ∧ c ≠ '\r'

/-- The text before a position. -/
def before? (breaks : Char → Bool) (text : List Char) (p : Position) : Option (List Char) :=
  (splitLines breaks text)[p.line]?.map fun line =>
    ((splitLines breaks text).take p.line).flatten ++ upToUnits p.column (lineContent line)

/-- The byte offset that the protocol gives a position. -/
def protocolOffset? (text : List Char) (p : Position) : Option Nat :=
  (before? isProtocolBreak text p).map utf8Length

theorem offsetAt?_eq_before? (text : List Char) (p : Position) :
    offsetAt? text p = (before? isLineBreak text p).map utf8Length := by
  simp only [offsetAt?, before?, lineContent, lines_eq_splitLines, Option.map_map, Function.comp_def,
    utf8Length_append]

/-- The texts by their beginnings: the two characters of one break, or one character by itself. -/
theorem line_induction {motive : List Char → Prop} (nil : motive [])
    (crlf : ∀ cs, motive cs → motive ('\r' :: '\n' :: cs))
    (char : ∀ c cs, (∀ rest, c = '\r' → cs = '\n' :: rest → False) → motive cs → motive (c :: cs)) :
    ∀ cs, motive cs := by
  intro cs
  fun_induction lines cs with
  | case1 => exact nil
  | case2 cs ih => exact crlf cs ih
  | case3 c cs single _ ih => exact char c cs single ih
  | case4 c cs single _ _ ih => exact char c cs single ih
  | case5 c cs single _ _ _ _ ih => exact char c cs single ih

theorem splitLines_ne_nil (breaks : Char → Bool) (cs : List Char) : splitLines breaks cs ≠ [] := by
  fun_cases splitLines breaks cs <;> simp_all

theorem isLineBreak_of_isProtocolBreak {c : Char} (here : isProtocolBreak c = true) : isLineBreak c = true := by
  rcases (by simpa [isProtocolBreak] using here : c = '\n' ∨ c = '\r') with rfl | rfl <;> rfl

/-- A character breaks lines in the protocol, or in the document only, or not at all. -/
theorem break_cases (c : Char) :
    (isProtocolBreak c = true ∧ isLineBreak c = true ∧ isSeparator c = false) ∨
    (isProtocolBreak c = false ∧ isLineBreak c = true ∧ isSeparator c = true) ∨
    (isProtocolBreak c = false ∧ isLineBreak c = false ∧ isSeparator c = false) := by
  cases known : isProtocolBreak c with
  | true => exact .inl ⟨rfl, isLineBreak_of_isProtocolBreak known, by simp [isSeparator, known]⟩
  | false => cases here : isLineBreak c <;> simp [isSeparator, known, here]

theorem lineContent_cons {c : Char} {line : List Char} :
    lineContent (c :: line) = if isProtocolBreak c then [] else c :: lineContent line := by
  by_cases here : c = '\n' ∨ c = '\r'
  · rcases here with rfl | rfl <;> rfl
  · obtain ⟨notFeed, notReturn⟩ := not_or.mp here
    simp [lineContent, isProtocolBreak, notFeed, notReturn]

section Recursion

variable {breaks : Char → Bool} {c : Char} {cs : List Char} {k n : Nat}

@[simp] theorem upToUnits_zero : upToUnits 0 cs = [] := by cases cs <;> rfl

@[simp] theorem upToUnits_nil : upToUnits n [] = [] := by cases n <;> rfl

@[simp] theorem before?_nil_zero : before? breaks [] ⟨0, n⟩ = some [] := by
  simp [before?, splitLines, lineContent]

@[simp] theorem before?_nil_succ : before? breaks [] ⟨k + 1, n⟩ = none := by
  simp [before?, splitLines]

@[simp] theorem before?_crlf_zero : before? breaks ('\r' :: '\n' :: cs) ⟨0, n⟩ = some [] := by
  simp [before?, splitLines, lineContent]

@[simp] theorem before?_crlf_succ :
    before? breaks ('\r' :: '\n' :: cs) ⟨k + 1, n⟩ =
      (before? breaks cs ⟨k, n⟩).map fun before => '\r' :: '\n' :: before := by
  simp [before?, splitLines, Function.comp_def]

theorem before?_break_zero (single : ∀ rest, c = '\r' → cs = '\n' :: rest → False) (here : breaks c = true) :
    before? breaks (c :: cs) ⟨0, n⟩ = some (upToUnits n (lineContent [c])) := by
  simp [before?, splitLines.eq_3 _ _ _ single, here]

theorem before?_break_succ (single : ∀ rest, c = '\r' → cs = '\n' :: rest → False) (here : breaks c = true) :
    before? breaks (c :: cs) ⟨k + 1, n⟩ = (before? breaks cs ⟨k, n⟩).map (c :: ·) := by
  simp [before?, splitLines.eq_3 _ _ _ single, here, Function.comp_def]

theorem before?_char_zero (single : ∀ rest, c = '\r' → cs = '\n' :: rest → False) (ordinary : breaks c = false)
    (notBreak : isProtocolBreak c = false) :
    before? breaks (c :: cs) ⟨0, n + 1⟩ = (before? breaks cs ⟨0, n + 1 - utf16Size c⟩).map (c :: ·) := by
  obtain ⟨first, more, eq⟩ := List.exists_cons_of_ne_nil (splitLines_ne_nil breaks cs)
  simp [before?, splitLines.eq_3 _ _ _ single, ordinary, eq, lineContent_cons, notBreak, upToUnits]

theorem before?_char_succ (single : ∀ rest, c = '\r' → cs = '\n' :: rest → False) (ordinary : breaks c = false) :
    before? breaks (c :: cs) ⟨k + 1, n⟩ = (before? breaks cs ⟨k + 1, n⟩).map (c :: ·) := by
  obtain ⟨first, more, eq⟩ := List.exists_cons_of_ne_nil (splitLines_ne_nil breaks cs)
  simp [before?, splitLines.eq_3 _ _ _ single, ordinary, eq, Function.comp_def]

/-- A position in the rest of a text whose first character breaks no line. -/
def afterChar (c : Char) : Position → Position
  | ⟨0, n⟩ => ⟨0, n - utf16Size c⟩
  | ⟨k + 1, n⟩ => ⟨k + 1, n⟩

theorem before?_char (single : ∀ rest, c = '\r' → cs = '\n' :: rest → False) (ordinary : breaks c = false)
    (notBreak : isProtocolBreak c = false) {p : Position} (later : p ≠ ⟨0, 0⟩) :
    before? breaks (c :: cs) p = (before? breaks cs (afterChar c p)).map (c :: ·) := by
  obtain ⟨k, n⟩ := p
  cases k with
  | zero =>
    cases n with
    | zero => exact absurd rfl later
    | succ n => exact before?_char_zero single ordinary notBreak
  | succ k => exact before?_char_succ single ordinary

/-- At the start of the text nothing stands before. -/
theorem before?_zero_zero : before? breaks cs ⟨0, 0⟩ = some [] := by
  obtain ⟨first, more, eq⟩ := List.exists_cons_of_ne_nil (splitLines_ne_nil breaks cs)
  simp [before?, eq]

/-- A line other than the first has its predecessors before it. -/
theorem ne_nil_of_before?_succ {before : List Char} (found : before? breaks cs ⟨k + 1, n⟩ = some before) :
    before ≠ [] := by
  induction cs using line_induction with
  | nil => simp at found
  | crlf cs ih =>
    obtain ⟨rest, -, rfl⟩ := Option.map_eq_some_iff.mp (before?_crlf_succ ▸ found)
    exact List.cons_ne_nil _ _
  | char c cs single ih =>
    cases here : breaks c with
    | true =>
      obtain ⟨rest, -, rfl⟩ := Option.map_eq_some_iff.mp (before?_break_succ single here ▸ found)
      exact List.cons_ne_nil _ _
    | false =>
      obtain ⟨rest, -, rfl⟩ := Option.map_eq_some_iff.mp (before?_char_succ single here ▸ found)
      exact List.cons_ne_nil _ _

end Recursion

theorem before?_eq_none_iff {breaks : Char → Bool} {text : List Char} {p : Position} :
    before? breaks text p = none ↔ (splitLines breaks text).length ≤ p.line := by
  simp [before?]

/-- Every separator makes one more line. -/
theorem length_lines (text : List Char) :
    (lines text).length = (protocolLines text).length + text.countP isSeparator := by
  rw [lines_eq_splitLines, protocolLines]
  induction text using line_induction with
  | nil => rfl
  | crlf cs ih =>
    have feed : isSeparator '\n' = false := rfl
    have back : isSeparator '\r' = false := rfl
    simp only [splitLines, List.length_cons, List.countP_cons, ih, feed, back, Bool.false_eq_true, if_false]
    omega
  | char c cs single ih =>
    obtain ⟨first, more, eq⟩ := List.exists_cons_of_ne_nil (splitLines_ne_nil isLineBreak cs)
    obtain ⟨first', more', eq'⟩ := List.exists_cons_of_ne_nil (splitLines_ne_nil isProtocolBreak cs)
    rw [eq, eq', List.length_cons, List.length_cons] at ih
    rw [splitLines.eq_3 _ _ _ single, splitLines.eq_3 _ _ _ single, List.countP_cons, eq, eq']
    rcases break_cases c with ⟨known, broken, kind⟩ | ⟨known, broken, kind⟩ | ⟨known, broken, kind⟩ <;>
      simp only [known, broken, kind, if_true, if_false, List.length_cons, Bool.false_eq_true] <;> omega

theorem map_cons_eq_some {c : Char} {found : Option (List Char)} {rest : List Char} :
    found.map (c :: ·) = some (c :: rest) ↔ found = some rest := by
  simp

/-- The start of a line of the document never reaches the start of a later line of the protocol. -/
theorem before?_ne {text before : List Char} {j k m n : Nat} (le : j ≤ k)
    (found : before? isProtocolBreak text ⟨k + 1, n⟩ = some before) :
    before? isLineBreak text ⟨j, m⟩ ≠ some before := by
  induction text using line_induction generalizing j k m before with
  | nil => simp at found
  | crlf cs ih =>
    obtain ⟨rest, later, rfl⟩ := Option.map_eq_some_iff.mp (before?_crlf_succ ▸ found)
    cases j with
    | zero => simp
    | succ j =>
      obtain ⟨k, rfl⟩ := Nat.exists_eq_succ_of_ne_zero (Nat.ne_of_gt (Nat.lt_of_lt_of_le j.succ_pos le))
      simpa using ih (Nat.le_of_succ_le_succ le) later
  | char c cs single ih =>
    rcases break_cases c with ⟨known, broken, -⟩ | ⟨known, broken, -⟩ | ⟨known, broken, -⟩
    · obtain ⟨rest, later, rfl⟩ := Option.map_eq_some_iff.mp (before?_break_succ single known ▸ found)
      cases j with
      | zero => simp [before?_break_zero single broken, lineContent_cons, known]
      | succ j =>
        obtain ⟨k, rfl⟩ := Nat.exists_eq_succ_of_ne_zero (Nat.ne_of_gt (Nat.lt_of_lt_of_le j.succ_pos le))
        rw [before?_break_succ single broken, ne_eq, map_cons_eq_some]
        exact ih (Nat.le_of_succ_le_succ le) later
    · obtain ⟨rest, later, rfl⟩ := Option.map_eq_some_iff.mp (before?_char_succ single known ▸ found)
      cases j with
      | zero =>
        have longer := ne_nil_of_before?_succ later
        rw [before?_break_zero single broken, lineContent_cons, known]
        cases m <;> simp [lineContent, upToUnits, longer.symm]
      | succ j =>
        rw [before?_break_succ single broken, ne_eq, map_cons_eq_some]
        exact ih (Nat.le_of_succ_le le) later
    · obtain ⟨rest, later, rfl⟩ := Option.map_eq_some_iff.mp (before?_char_succ single known ▸ found)
      cases j with
      | zero =>
        cases m with
        | zero => simp [before?_zero_zero]
        | succ m =>
          rw [before?_char_zero single broken known, ne_eq, map_cons_eq_some]
          exact ih (Nat.zero_le k) later
      | succ j =>
        rw [before?_char_succ single broken, ne_eq, map_cons_eq_some]
        exact ih le later

/-- No character before the last is a separator. -/
def Unseparated (before : List Char) : Prop := ∀ c ∈ before.dropLast, isSeparator c = false

theorem unseparated_nil : Unseparated [] := by simp [Unseparated]

theorem unseparated_cons {c : Char} {rest : List Char} (ordinary : isSeparator c = false) :
    Unseparated (c :: rest) ↔ Unseparated rest := by
  cases rest with
  | nil => simp [Unseparated]
  | cons d rest => simp [Unseparated, ordinary]

theorem unseparated_cons_separator {c : Char} {rest : List Char} (separator : isSeparator c = true) :
    Unseparated (c :: rest) ↔ rest = [] := by
  cases rest with
  | nil => simp [Unseparated]
  | cons d rest => simp [Unseparated, separator]

/-- The document and the protocol have the same text before a position when no separator stands in it, its
last character apart. -/
theorem before?_eq_some_iff {text before : List Char} {p : Position}
    (found : before? isProtocolBreak text p = some before) :
    before? isLineBreak text p = some before ↔ Unseparated before := by
  induction text using line_induction generalizing p before with
  | nil =>
    obtain ⟨k, n⟩ := p
    cases k with
    | zero =>
      rw [before?_nil_zero, Option.some.injEq] at found
      simp [← found, unseparated_nil]
    | succ k => simp at found
  | crlf cs ih =>
    obtain ⟨k, n⟩ := p
    cases k with
    | zero =>
      rw [before?_crlf_zero, Option.some.injEq] at found
      simp [← found, unseparated_nil]
    | succ k =>
      obtain ⟨rest, later, rfl⟩ := Option.map_eq_some_iff.mp (before?_crlf_succ ▸ found)
      rw [unseparated_cons (by rfl), unseparated_cons (by rfl), ← ih later]
      simp
  | char c cs single ih =>
    by_cases start : p = ⟨0, 0⟩
    · rw [start, before?_zero_zero, Option.some.injEq] at found
      simp [← found, start, before?_zero_zero, unseparated_nil]
    rcases break_cases c with ⟨known, broken, kind⟩ | ⟨known, broken, kind⟩ | ⟨known, broken, kind⟩
    · obtain ⟨k, n⟩ := p
      cases k with
      | zero =>
        rw [before?_break_zero single known, lineContent_cons, if_pos known, upToUnits_nil, Option.some.injEq] at found
        simp [← found, before?_break_zero single broken, lineContent_cons, known, unseparated_nil]
      | succ k =>
        obtain ⟨rest, later, rfl⟩ := Option.map_eq_some_iff.mp (before?_break_succ single known ▸ found)
        rw [before?_break_succ single broken, map_cons_eq_some, unseparated_cons kind, ih later]
    · obtain ⟨rest, later, rfl⟩ := Option.map_eq_some_iff.mp (before?_char single known known start ▸ found)
      rw [unseparated_cons_separator kind]
      obtain ⟨k, n⟩ := p
      cases k with
      | zero =>
        obtain ⟨n, rfl⟩ := Nat.exists_eq_succ_of_ne_zero fun zero => start (congrArg (Position.mk 0) zero)
        rw [before?_break_zero single broken, lineContent_cons, known]
        simp [lineContent, upToUnits, eq_comm]
      | succ k =>
        rw [before?_break_succ single broken, map_cons_eq_some]
        exact iff_of_false (before?_ne (Nat.le_refl k) later) (ne_nil_of_before?_succ later)
    · obtain ⟨rest, later, rfl⟩ := Option.map_eq_some_iff.mp (before?_char single known known start ▸ found)
      rw [before?_char single broken known start, map_cons_eq_some, unseparated_cons kind, ih later]

theorem flatten_splitLines (breaks : Char → Bool) (cs : List Char) : (splitLines breaks cs).flatten = cs := by
  induction cs using line_induction with
  | nil => rfl
  | crlf cs ih => simp [splitLines, ih]
  | char c cs single ih =>
    obtain ⟨first, more, eq⟩ := List.exists_cons_of_ne_nil (splitLines_ne_nil breaks cs)
    rw [splitLines.eq_3 _ _ _ single]
    cases breaks c with
    | true => simp [ih]
    | false =>
      rw [eq, List.flatten_cons] at ih
      simp [eq, ih]

/-- The shortest part of a line's content from its start that has so many units, or all of the
content when it has fewer. -/
structure IsShortest (units : Nat) (content start : List Char) : Prop where
  isStart : start <+: content
  enough : units ≤ utf16Length start ∨ start = content
  shortest : ∀ shorter, shorter <+: start → shorter ≠ start → utf16Length shorter < units

theorem upToUnits_isShortest (n : Nat) (cs : List Char) : IsShortest n cs (upToUnits n cs) := by
  induction cs generalizing n with
  | nil =>
    rw [upToUnits_nil]
    exact ⟨List.prefix_refl _, .inr rfl, fun shorter begins unequal => absurd (List.prefix_nil.mp begins) unequal⟩
  | cons c cs ih =>
    cases n with
    | zero =>
      rw [upToUnits_zero]
      exact ⟨List.nil_prefix, .inl (Nat.zero_le _), fun shorter begins unequal =>
        absurd (List.prefix_nil.mp begins) unequal⟩
    | succ n =>
      obtain ⟨isStart, enough, shortest⟩ := ih (n + 1 - utf16Size c)
      refine ⟨(List.prefix_cons_inj c).mpr isStart, ?_, fun shorter begins unequal => ?_⟩
      · rcases enough with many | all
        · left
          simp only [upToUnits, utf16Length]
          omega
        · right
          rw [upToUnits, all]
      · cases shorter with
        | nil => exact n.succ_pos
        | cons d shorter =>
          obtain ⟨rfl, inner⟩ := List.cons_prefix_cons.mp begins
          have fewer := shortest shorter inner fun same => unequal (by rw [upToUnits, same])
          simp only [utf16Length]
          omega

theorem IsShortest.eq_of_prefix {units : Nat} {content start start' : List Char}
    (one : IsShortest units content start) (other : IsShortest units content start') (begins : start <+: start') :
    start = start' := by
  by_contra unequal
  have fewer := other.shortest start begins unequal
  rcases one.enough with many | all
  · omega
  · exact unequal (begins.eq_of_length_le (all ▸ other.isStart.length_le))

theorem IsShortest.eq {units : Nat} {content start start' : List Char} (one : IsShortest units content start)
    (other : IsShortest units content start') : start = start' := by
  rcases List.prefix_or_prefix_of_prefix one.isStart other.isStart with begins | begins
  · exact one.eq_of_prefix other begins
  · exact (other.eq_of_prefix one begins).symm

/-- What stands before a position begins the text. -/
theorem prefix_of_before? {breaks : Char → Bool} {text before : List Char} {p : Position}
    (found : before? breaks text p = some before) : before <+: text := by
  obtain ⟨line, here, rfl⟩ := Option.map_eq_some_iff.mp found
  obtain ⟨bound, rfl⟩ := List.getElem?_eq_some_iff.mp here
  have parts : text = ((splitLines breaks text).take p.line).flatten ++
      ((splitLines breaks text)[p.line] ++ ((splitLines breaks text).drop (p.line + 1)).flatten) := by
    rw [← List.flatten_cons, ← List.drop_eq_getElem_cons, ← List.flatten_append, List.take_append_drop,
      flatten_splitLines]
  have inLine : upToUnits p.column (lineContent (splitLines breaks text)[p.line]) <+:
      (splitLines breaks text)[p.line] :=
    (upToUnits_isShortest _ _).isStart.trans (List.takeWhile_prefix _)
  have begins := (List.prefix_append_right_inj ((splitLines breaks text).take p.line).flatten).mpr
    (inLine.trans (List.prefix_append _ ((splitLines breaks text).drop (p.line + 1)).flatten))
  rwa [← parts] at begins

/-- Two starts of a text with the same number of bytes are one. -/
theorem eq_of_prefix_of_utf8Length_eq {text a b : List Char} (one : a <+: text) (other : b <+: text)
    (same : utf8Length a = utf8Length b) : a = b := by
  obtain ⟨rest, rfl⟩ := one
  obtain ⟨rest', eq⟩ := other
  obtain ⟨mid, rfl, -⟩ := append_eq_append_of_le eq (Nat.le_of_eq same.symm)
  cases mid with
  | nil => simp
  | cons c mid =>
    have := c.utf8Size_pos
    simp only [utf8Length_append, utf8Length_cons] at same
    omega

/-- The document gives the protocol's offset when no separator stands before the last character in front of
it; for a line that the protocol has not, when the document has not that many lines either. -/
theorem offsetAt?_eq_iff_unseparated (text : List Char) (p : Position) :
    offsetAt? text p = protocolOffset? text p ↔
      match before? isProtocolBreak text p with
      | some before => Unseparated before
      | none => (protocolLines text).length + text.countP isSeparator ≤ p.line := by
  rw [offsetAt?_eq_before?, protocolOffset?]
  cases found : before? isProtocolBreak text p with
  | none =>
    rw [Option.map_none, Option.map_eq_none_iff, before?_eq_none_iff, ← lines_eq_splitLines, length_lines]
  | some before =>
    show _ ↔ Unseparated before
    rw [← before?_eq_some_iff found, Option.map_some, Option.map_eq_some_iff]
    constructor
    · rintro ⟨other, there, same⟩
      rwa [eq_of_prefix_of_utf8Length_eq (prefix_of_before? there) (prefix_of_before? found) same] at there
    · exact fun there => ⟨before, there, rfl⟩

end Typeahead.Text

namespace Typeahead.Workspace

open Text

/-- Where a document's offset of a position is the protocol's, and what the protocol's offset is: there is one
exactly when the line exists, and it is the end of the shortest start of the line's content that has as many
units as the column. -/
theorem Document.offsetAt?_eq_protocolOffset?_iff (d : Document) (p : Position) :
    (d.offsetAt? p = protocolOffset? d.text.toList p ↔
      match before? isProtocolBreak d.text.toList p with
      | some before => Unseparated before
      | none => (protocolLines d.text.toList).length + d.text.toList.countP isSeparator ≤ p.line) ∧
    (protocolOffset? d.text.toList p = none ↔ (protocolLines d.text.toList).length ≤ p.line) ∧
    ∀ offset, protocolOffset? d.text.toList p = some offset ↔
      ∃ line start, (protocolLines d.text.toList)[p.line]? = some line ∧
        IsShortest p.column (lineContent line) start ∧
        offset = utf8Length ((protocolLines d.text.toList).take p.line).flatten + utf8Length start := by
  refine ⟨offsetAt?_eq_iff_unseparated _ p, ?_, fun offset => ?_⟩
  · rw [protocolOffset?, Option.map_eq_none_iff, before?_eq_none_iff, protocolLines]
  · simp only [protocolOffset?, before?, Option.map_map, Option.map_eq_some_iff, Function.comp_apply,
      utf8Length_append, ← protocolLines.eq_1]
    constructor
    · rintro ⟨line, here, rfl⟩
      exact ⟨line, _, here, upToUnits_isShortest _ _, rfl⟩
    · rintro ⟨line, start, here, shortest, rfl⟩
      exact ⟨line, here, by rw [shortest.eq (upToUnits_isShortest _ _)]⟩

/-- A line separator inside a line: the end of the line and all later lines are off. -/
theorem Document.offsetAt?_behind_separator :
    let d : Document := { languageId := "csharp", version := 1, text := "a\u2028b\nc" }
    d.offsetAt? ⟨1, 0⟩ = some 4 ∧ protocolOffset? d.text.toList ⟨1, 0⟩ = some 6 ∧
      d.offsetAt? ⟨0, 3⟩ = some 4 ∧ protocolOffset? d.text.toList ⟨0, 3⟩ = some 5 ∧
      d.offsetAt? ⟨2, 0⟩ = some 6 ∧ protocolOffset? d.text.toList ⟨2, 0⟩ = none := by
  decide

end Typeahead.Workspace
