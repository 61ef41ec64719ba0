import Typeahead.Proofs.Text.ProtocolLines

namespace Typeahead.Text

/-- The order of reading: by lines, in a line by columns. -/
def Position.Precedes (p q : Position) : Prop := p.line < q.line ∨ p.line = q.line ∧ p.column < q.column

/-- The offset stands between a carriage return and the line feed that makes up one break with it. -/
def DividesBreak (offset : Nat) (text : List Char) : Prop :=
  ∃ before after, text = before ++ '\r' :: '\n' :: after ∧ offset = utf8Length before + 1

/-- The same place in a text with one line more in front. -/
def Position.afterLine (p : Position) : Position := ⟨p.line + 1, p.column⟩

/-- The same place in a text whose first line has one character more in front. -/
def Position.behind (c : Char) : Position → Position
  | ⟨0, n⟩ => ⟨0, utf16Size c + n⟩
  | ⟨k + 1, n⟩ => ⟨k + 1, n⟩

section Recursion

variable {c : Char} {cs : List Char} {n : Nat}

theorem upTo_add (c : Char) (cs : List Char) (n : Nat) : upTo (c.utf8Size + n) (c :: cs) = c :: upTo n cs := by
  rw [upTo, if_pos (Nat.le_add_right _ _), Nat.add_sub_cancel_left]

theorem upTo_zero (cs : List Char) : upTo 0 cs = [] := by
  cases cs with
  | nil => rfl
  | cons c cs =>
    have wide := c.utf8Size_pos
    rw [upTo, if_neg (by omega)]

theorem positionIn_succ (number : Nat) (all : List (List Char)) (n : Nat) :
    positionIn (number + 1) all n = (positionIn number all n).afterLine := by
  fun_induction positionIn number all n with
  | case1 | case2 => rfl
  | case3 number line next more n inside => rw [positionIn, if_pos inside]; rfl
  | case4 number line next more n beyond ih => rw [positionIn, if_neg beyond, ih]

/-- Behind the first line the position is that in the other lines. -/
theorem positionIn_line (line : List Char) {all : List (List Char)} (more : all ≠ []) :
    positionIn 0 (line :: all) (utf8Length line + n) = (positionIn 0 all n).afterLine := by
  obtain ⟨next, more, rfl⟩ := List.exists_cons_of_ne_nil more
  rw [positionIn, if_neg (by omega), Nat.add_sub_cancel_left, positionIn_succ]

theorem positionIn_cons (c : Char) (first : List Char) (more : List (List Char)) :
    positionIn 0 ((c :: first) :: more) (c.utf8Size + n) = (positionIn 0 (first :: more) n).behind c := by
  cases more with
  | nil => rw [positionIn, positionIn, upTo_add]; rfl
  | cons next more =>
    rw [positionIn, positionIn, utf8Length_cons, upTo_add, Nat.add_sub_add_left]
    by_cases inside : n < utf8Length first
    · rw [if_pos (by omega), if_pos inside]
      rfl
    · rw [if_neg (by omega), if_neg inside, positionIn_succ]
      rfl

theorem positionIn_start (c : Char) (line : List Char) (more : List (List Char)) :
    positionIn 0 ((c :: line) :: more) 0 = ⟨0, 0⟩ := by
  have wide := c.utf8Size_pos
  cases more with
  | nil => rw [positionIn, upTo_zero]; rfl
  | cons next more => rw [positionIn, if_pos (by rw [utf8Length_cons]; omega), upTo_zero]; rfl

/-- The start of the text is the first position. -/
theorem positionAt_zero (cs : List Char) : positionAt cs 0 = ⟨0, 0⟩ := by
  unfold positionAt
  fun_cases lines cs with
  | case1 => rfl
  | case2 cs => exact positionIn_start ..
  | case3 c cs _ here => exact positionIn_start ..
  | case4 c cs _ ordinary empty => exact positionIn_start ..
  | case5 c cs _ ordinary first more eq => exact positionIn_start ..

theorem positionAt_crlf : positionAt ('\r' :: '\n' :: cs) (2 + n) = (positionAt cs n).afterLine :=
  positionIn_line ['\r', '\n'] (lines_ne_nil cs)

theorem positionAt_crlf_one : positionAt ('\r' :: '\n' :: cs) 1 = ⟨0, 1⟩ := by
  obtain ⟨next, more, eq⟩ := List.exists_cons_of_ne_nil (lines_ne_nil cs)
  rw [positionAt, lines, eq]
  rfl

theorem positionAt_break (single : ∀ rest, c = '\r' → cs = '\n' :: rest → False) (here : isLineBreak c = true) :
    positionAt (c :: cs) (c.utf8Size + n) = (positionAt cs n).afterLine := by
  rw [positionAt, lines.eq_3 _ _ single, if_pos here]
  exact positionIn_line [c] (lines_ne_nil cs)

theorem positionAt_char (single : ∀ rest, c = '\r' → cs = '\n' :: rest → False) (ordinary : isLineBreak c = false) :
    positionAt (c :: cs) (c.utf8Size + n) = (positionAt cs n).behind c := by
  obtain ⟨first, more, eq⟩ := List.exists_cons_of_ne_nil (lines_ne_nil cs)
  simp only [positionAt, lines.eq_3 _ _ single, ordinary, eq, Bool.false_eq_true, if_false]
  exact positionIn_cons c first more

end Recursion

theorem Position.behind_ne_zero (c : Char) (p : Position) : p.behind c ≠ ⟨0, 0⟩ := by
  obtain ⟨k, n⟩ := p
  cases k with
  | zero =>
    have wide : 0 < utf16Size c := by unfold utf16Size; split <;> decide
    simp only [behind, ne_eq, Position.mk.injEq, true_and]
    omega
  | succ k => simp [behind]

theorem Position.afterChar_behind (c : Char) (p : Position) : afterChar c (p.behind c) = p := by
  obtain ⟨k, n⟩ := p
  cases k with
  | zero => simp [behind, afterChar]
  | succ k => rfl

/-- What stands in front of a place, and of the break around it if it divides one. -/
def outOfBreak (before rest : List Char) : List Char :=
  if before.getLast? = some '\r' ∧ rest.head? = some '\n' then before.dropLast else before

theorem outOfBreak_cons {before rest : List Char} (c : Char)
    (single : before = [] → c = '\r' → rest.head? ≠ some '\n') :
    outOfBreak (c :: before) rest = c :: outOfBreak before rest := by
  cases before with
  | nil =>
    have whole : ¬ (c = '\r' ∧ rest.head? = some '\n') := fun both => single rfl both.1 both.2
    simpa [outOfBreak] using whole
  | cons d before =>
    simp only [outOfBreak, List.getLast?_cons_cons, List.dropLast_cons_cons]
    split <;> rfl

/-- The position of a place leads back to the place, or to the start of the break that it divides. -/
theorem before?_positionAt (before rest : List Char) :
    before? isLineBreak (before ++ rest) (positionAt (before ++ rest) (utf8Length before)) =
      some (outOfBreak before rest) := by
  generalize whole : before ++ rest = text
  induction text using line_induction generalizing before with
  | nil =>
    obtain ⟨rfl, rfl⟩ := List.append_eq_nil_iff.mp whole
    rfl
  | crlf cs ih =>
    match before with
    | [] =>
      rw [utf8Length_nil, positionAt_zero, before?_zero_zero]
      simp [outOfBreak]
    | [c] =>
      obtain ⟨rfl, rfl⟩ := List.cons.inj whole
      have one : utf8Length ['\r'] = 1 := rfl
      rw [one, positionAt_crlf_one, before?_crlf_zero]
      rfl
    | c :: d :: before =>
      obtain ⟨rfl, afterReturn⟩ := List.cons.inj whole
      obtain ⟨rfl, tail⟩ := List.cons.inj afterReturn
      have two : utf8Length ('\r' :: '\n' :: before) = 2 + utf8Length before := by
        simp only [utf8Length_cons, show '\r'.utf8Size = 1 from rfl, show '\n'.utf8Size = 1 from rfl]
        omega
      rw [two, positionAt_crlf]
      have behindReturn : outOfBreak ('\r' :: '\n' :: before) rest = '\r' :: outOfBreak ('\n' :: before) rest :=
        outOfBreak_cons '\r' (by simp)
      rw [Position.afterLine, before?_crlf_succ, ih before tail, behindReturn, outOfBreak_cons '\n' (by simp)]
      rfl
  | char c cs single ih =>
    match before with
    | [] =>
      rw [utf8Length_nil, positionAt_zero, before?_zero_zero]
      simp [outOfBreak]
    | d :: before =>
      obtain ⟨rfl, tail⟩ := List.cons.inj whole
      have undivided : before = [] → d = '\r' → rest.head? ≠ some '\n' := by
        rintro rfl isReturn feed
        obtain ⟨more, rfl⟩ := List.head?_eq_some_iff.mp feed
        exact single more isReturn tail.symm
      rw [utf8Length_cons, outOfBreak_cons d undivided]
      cases here : isLineBreak d with
      | true =>
        rw [positionAt_break single here, Position.afterLine, before?_break_succ single here, ih before tail]
        rfl
      | false =>
        have known : isProtocolBreak d = false := by
          rcases break_cases d with ⟨-, broken, -⟩ | ⟨known, -⟩ | ⟨known, -⟩
          · rw [here] at broken; contradiction
          · exact known
          · exact known
        rw [positionAt_char single here, before?_char single here known (Position.behind_ne_zero _ _),
          Position.afterChar_behind, ih before tail]
        rfl

/-- In a text with one character more in front a place is the start or behind the character. -/
theorem isBoundary_cons_iff {c : Char} {cs : List Char} {n : Nat} :
    IsBoundary n (c :: cs) ↔ n = 0 ∨ ∃ m, IsBoundary m cs ∧ n = c.utf8Size + m := by
  constructor
  · rintro ⟨before, after, whole, rfl⟩
    cases before with
    | nil => exact .inl rfl
    | cons d before =>
      obtain ⟨rfl, rfl⟩ := List.cons.inj whole
      exact .inr ⟨_, isBoundary_append before after, rfl⟩
  · rintro (rfl | ⟨m, boundary, rfl⟩)
    · exact isBoundary_zero _
    · simpa using boundary.append_left [c]

theorem isBoundary_crlf_iff {cs : List Char} {n : Nat} :
    IsBoundary n ('\r' :: '\n' :: cs) ↔ n = 0 ∨ n = 1 ∨ ∃ m, IsBoundary m cs ∧ n = 2 + m := by
  rw [isBoundary_cons_iff]
  simp only [isBoundary_cons_iff, show '\r'.utf8Size = 1 from rfl, show '\n'.utf8Size = 1 from rfl]
  constructor
  · rintro (rfl | ⟨m, rfl | ⟨k, boundary, rfl⟩, rfl⟩)
    · exact .inl rfl
    · exact .inr (.inl rfl)
    · exact .inr (.inr ⟨k, boundary, by omega⟩)
  · rintro (rfl | rfl | ⟨m, boundary, rfl⟩)
    · exact .inl rfl
    · exact .inr ⟨0, .inl rfl, rfl⟩
    · exact .inr ⟨1 + m, .inr ⟨m, boundary, rfl⟩, by omega⟩

theorem Position.zero_precedes {p : Position} (later : p ≠ ⟨0, 0⟩) : Position.Precedes ⟨0, 0⟩ p := by
  obtain ⟨k, n⟩ := p
  simp only [ne_eq, Position.mk.injEq, not_and_or] at later
  simp only [Precedes]
  omega

theorem Position.precedes_afterLine {p q : Position} (before : p.Precedes q) : p.afterLine.Precedes q.afterLine := by
  simp only [Precedes, afterLine] at *
  omega

theorem Position.precedes_behind {p q : Position} (c : Char) (before : p.Precedes q) :
    (p.behind c).Precedes (q.behind c) := by
  obtain ⟨k, m⟩ := p
  obtain ⟨l, n⟩ := q
  unfold Precedes at *
  cases k with
  | zero =>
    cases l with
    | zero => simpa [behind] using before
    | succ l => exact .inl l.succ_pos
  | succ k =>
    cases l with
    | zero => simp at before
    | succ l => exact before

/-- Places in their order have their positions in the order of reading. -/
theorem positionAt_precedes {text : List Char} {a b : Nat} (first : IsBoundary a text) (second : IsBoundary b text)
    (lt : a < b) : (positionAt text a).Precedes (positionAt text b) := by
  induction text using line_induction generalizing a b with
  | nil =>
    have none := second.le
    rw [utf8Length_nil] at none
    omega
  | crlf cs ih =>
    have start := positionAt_zero ('\r' :: '\n' :: cs)
    rcases isBoundary_crlf_iff.mp second with rfl | rfl | ⟨n, later, rfl⟩
    · omega
    · obtain rfl : a = 0 := by omega
      rw [start, positionAt_crlf_one]
      exact Position.zero_precedes (by decide)
    · rw [positionAt_crlf]
      rcases isBoundary_crlf_iff.mp first with rfl | rfl | ⟨m, earlier, rfl⟩
      · rw [start]
        exact Position.zero_precedes (by simp [Position.afterLine])
      · rw [positionAt_crlf_one]
        exact .inl (Nat.succ_pos _)
      · rw [positionAt_crlf]
        exact Position.precedes_afterLine (ih earlier later (by omega))
  | char c cs single ih =>
    rcases isBoundary_cons_iff.mp second with rfl | ⟨n, later, rfl⟩
    · omega
    cases here : isLineBreak c with
    | true =>
      rw [positionAt_break single here]
      rcases isBoundary_cons_iff.mp first with rfl | ⟨m, earlier, rfl⟩
      · rw [positionAt_zero]
        exact Position.zero_precedes (by simp [Position.afterLine])
      · rw [positionAt_break single here]
        exact Position.precedes_afterLine (ih earlier later (by omega))
    | false =>
      rw [positionAt_char single here]
      rcases isBoundary_cons_iff.mp first with rfl | ⟨m, earlier, rfl⟩
      · rw [positionAt_zero]
        exact Position.zero_precedes (Position.behind_ne_zero c _)
      · rw [positionAt_char single here]
        exact Position.precedes_behind c (ih earlier later (by omega))

/-- A place divides a break exactly when the two characters on its sides make up one. -/
theorem dividesBreak_iff {before rest : List Char} :
    DividesBreak (utf8Length before) (before ++ rest) ↔ before.getLast? = some '\r' ∧ rest.head? = some '\n' := by
  constructor
  · rintro ⟨front, after, whole, size⟩
    have parts : before ++ rest = (front ++ ['\r']) ++ '\n' :: after := by simpa using whole
    have same : before = front ++ ['\r'] :=
      eq_of_prefix_of_utf8Length_eq (List.prefix_append before rest) (parts ▸ List.prefix_append _ _)
        (by rw [size, utf8Length_append]; rfl)
    subst same
    obtain rfl := List.append_cancel_left parts
    simp
  · rintro ⟨isReturn, feed⟩
    obtain ⟨front, rfl⟩ := List.getLast?_eq_some_iff.mp isReturn
    obtain ⟨after, rfl⟩ := List.head?_eq_some_iff.mp feed
    exact ⟨front, after, by simp, by rw [utf8Length_append]; rfl⟩

theorem offsetAt?_positionAt_append (before rest : List Char) :
    offsetAt? (before ++ rest) (positionAt (before ++ rest) (utf8Length before)) =
      some (utf8Length (outOfBreak before rest)) := by
  rw [offsetAt?_eq_before?, before?_positionAt, Option.map_some]

end Typeahead.Text

namespace Typeahead.Workspace

open Text

/-- Offsets survive the way through positions: the position of a boundary leads back to it, unless it divides a
break, and then to the start of the break. Boundaries in their order have their positions in the order of
reading. -/
theorem Document.positions_of_boundaries (d : Document) :
    (∀ offset, IsBoundary offset d.text.toList → ¬ DividesBreak offset d.text.toList →
      d.offsetAt? (d.positionAt offset) = some offset) ∧
    (∀ offset, DividesBreak (offset + 1) d.text.toList → d.offsetAt? (d.positionAt (offset + 1)) = some offset) ∧
    ∀ a b, IsBoundary a d.text.toList → IsBoundary b d.text.toList → a < b →
      (d.positionAt a).Precedes (d.positionAt b) := by
  simp only [Document.offsetAt?, Document.positionAt]
  refine ⟨?_, ?_, fun a b => positionAt_precedes⟩
  · rintro offset ⟨before, rest, whole, rfl⟩ undivided
    rw [whole] at undivided ⊢
    rw [offsetAt?_positionAt_append, outOfBreak, if_neg (mt dividesBreak_iff.mpr undivided)]
  · rintro offset ⟨before, after, whole, size⟩
    have parts : d.text.toList = (before ++ ['\r']) ++ '\n' :: after := by simpa using whole
    have behind : offset + 1 = utf8Length (before ++ ['\r']) := by rw [size, utf8Length_append]; rfl
    rw [parts, behind, offsetAt?_positionAt_append, outOfBreak, if_pos (by simp), List.dropLast_concat]
    congr 1
    omega

/-- A surrogate pair, a line end of two characters and a line separator. -/
theorem Document.positions_of_boundaries_mixed :
    let d : Document := { languageId := "csharp", version := 1, text := "a𝒳\r\nb\u2028é" }
    (d.positionAt 5 = ⟨0, 3⟩ ∧ d.offsetAt? (d.positionAt 5) = some 5) ∧
      (d.positionAt 6 = ⟨0, 4⟩ ∧ d.offsetAt? (d.positionAt 6) = some 5) ∧
      (d.positionAt 8 = ⟨1, 1⟩ ∧ d.positionAt 11 = ⟨2, 0⟩ ∧ (d.positionAt 8).Precedes (d.positionAt 11)) := by
  intro d
  obtain ⟨leadsBack, leadsOut, ordered⟩ := d.positions_of_boundaries
  have parts : d.text.toList = ['a', '𝒳'] ++ ['\r', '\n', 'b', '\u2028', 'é'] := by decide
  have undivided : ¬ DividesBreak (utf8Length ['a', '𝒳']) d.text.toList := by
    rw [parts, dividesBreak_iff]
    decide
  have five : IsBoundary 5 d.text.toList := ⟨['a', '𝒳'], ['\r', '\n', 'b', '\u2028', 'é'], by decide, by decide⟩
  have eight : IsBoundary 8 d.text.toList := ⟨['a', '𝒳', '\r', '\n', 'b'], ['\u2028', 'é'], by decide, by decide⟩
  have eleven : IsBoundary 11 d.text.toList := ⟨['a', '𝒳', '\r', '\n', 'b', '\u2028'], ['é'], by decide, by decide⟩
  have divided : DividesBreak 6 d.text.toList := ⟨['a', '𝒳'], ['b', '\u2028', 'é'], by decide, by decide⟩
  exact ⟨⟨by decide, leadsBack 5 five undivided⟩, ⟨by decide, leadsOut 5 divided⟩,
    by decide, by decide, ordered 8 11 eight eleven (by decide)⟩

end Typeahead.Workspace
