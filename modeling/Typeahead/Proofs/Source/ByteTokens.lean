import Typeahead.Proofs.Source.ByteScan
import Typeahead.Source.Target
import Typeahead.Source.Token

namespace Typeahead.Source

open Text

/-- The characters of a token. -/
def Lexeme.text : Lexeme → List Char
  | .word text => text.toList
  | .number text => text.toList
  | .mark c => [c]

/-- Offset of the end of a token. -/
def Token.stop (t : Token) : Nat := t.start + utf8Length t.lexeme.text

theorem text_lexemeOfRun (run : List Char) : (lexemeOfRun run).text = run := by
  unfold lexemeOfRun
  split <;> simp [Lexeme.text]

/-- Where the tokens of bytes begin and end. -/
def byteBoundsFrom (offset : Nat) : List Char → List (Nat × Nat)
  | [] => []
  | b :: bs =>
    if isAsciiBlank b then byteBoundsFrom (offset + 1) bs
    else if isIdentifierChar b then
      let stop := offset + 1 + (bs.takeWhile isIdentifierChar).length
      (offset, stop) :: byteBoundsFrom stop (bs.dropWhile isIdentifierChar)
    else if b = '@' ∧ bs.head?.any isIdentifierChar then byteBoundsFrom (offset + 1) bs
    else (offset, offset + 1) :: byteBoundsFrom (offset + 1) bs
termination_by bs => bs.length
decreasing_by
  · simp
  · have := (List.dropWhile_sublist isIdentifierChar (l := bs)).length_le
    simp only [List.length_cons]; omega
  · simp
  · simp

theorem ascii_of_isAsciiBlank {c : Char} (blank : isAsciiBlank c = true) : c.toNat < 0x80 := by
  simp only [isAsciiBlank, Bool.or_eq_true, beq_iff_eq] at blank
  rcases blank with (((rfl | rfl) | rfl) | rfl) | rfl <;> decide

/-- Whatever is no part of a name is ASCII. -/
theorem ascii_of_not_isIdentifierChar {c : Char} (other : isIdentifierChar c = false) : c.toNat < 0x80 := by
  simp only [isIdentifierChar, Bool.or_eq_false_iff, decide_eq_false_iff_not] at other
  omega

theorem isAsciiBlank_eq_false {c : Char} (wide : 0x80 ≤ c.toNat) : isAsciiBlank c = false := by
  cases blank : isAsciiBlank c with
  | false => rfl
  | true =>
    have := ascii_of_isAsciiBlank blank
    omega

theorem readsBytes_isAsciiBlank : ReadsBytes isAsciiBlank := readsBytes _ fun _ => isAsciiBlank_eq_false

theorem byteBoundsFrom_eq (offset : Nat) (cs : List Char) :
    byteBoundsFrom offset (bytesAsChars cs) = (tokensFrom offset cs).map fun t => (t.start, t.stop) := by
  fun_induction tokensFrom offset cs with
  | case1 => rw [bytesAsChars_nil, byteBoundsFrom]; rfl
  | case2 offset c cs blank ih =>
    have ascii := ascii_of_isAsciiBlank blank
    rw [bytesAsChars_cons_of_ascii ascii, byteBoundsFrom, if_pos blank, ← ih, utf8Size_of_ascii ascii]
  | case3 offset c cs noBlank name more ih =>
    obtain ⟨b, others, bytes⟩ := List.exists_cons_of_ne_nil (byteChars_ne_nil c)
    have same : isIdentifierChar b = true ∧ isAsciiBlank b = false := by
      have inside : b ∈ byteChars c := by simp [bytes]
      exact ⟨(readsBytes_isIdentifierChar c b inside).trans name,
        (readsBytes_isAsciiBlank c b inside).trans (by simpa using noBlank)⟩
    have run := takeWhile_bytesAsChars readsBytes_isIdentifierChar (c :: cs)
    have rest := dropWhile_bytesAsChars readsBytes_isIdentifierChar (c :: cs)
    rw [bytesAsChars_cons, bytes, List.cons_append, List.takeWhile_cons_of_pos same.1,
      List.takeWhile_cons_of_pos name] at run
    rw [bytesAsChars_cons, bytes, List.cons_append, List.dropWhile_cons_of_pos same.1,
      List.dropWhile_cons_of_pos name] at rest
    have size := congrArg List.length run
    rw [List.length_cons, length_bytesAsChars] at size
    have stop : offset + 1 + ((others ++ bytesAsChars cs).takeWhile isIdentifierChar).length =
        offset + utf8Length (c :: more) := by
      simp only [more]
      omega
    rw [bytesAsChars_cons, bytes, List.cons_append, byteBoundsFrom, if_neg (by simp [same.2]), if_pos same.1]
    simp only [stop, rest, ih, List.map_cons, Token.stop, text_lexemeOfRun]
  | case4 offset c cs noBlank noName verbatim ih =>
    have ascii := ascii_of_not_isIdentifierChar (c := c) (by simpa using noName)
    have sign : c = '@' ∧ (bytesAsChars cs).head?.any isIdentifierChar = true :=
      ⟨verbatim.1, (readsBytes_isIdentifierChar.head?_any cs).trans verbatim.2⟩
    rw [bytesAsChars_cons_of_ascii ascii, byteBoundsFrom, if_neg noBlank, if_neg noName, if_pos sign, ← ih,
      utf8Size_of_ascii ascii]
  | case5 offset c cs noBlank noName plain ih =>
    have ascii := ascii_of_not_isIdentifierChar (c := c) (by simpa using noName)
    have noSign : ¬ (c = '@' ∧ (bytesAsChars cs).head?.any isIdentifierChar = true) := by
      rwa [readsBytes_isIdentifierChar.head?_any]
    have stop : (Token.mk (.mark c) offset).stop = offset + 1 := by
      simp [Token.stop, Lexeme.text, utf8Size_of_ascii ascii]
    rw [utf8Size_of_ascii ascii] at ih ⊢
    rw [bytesAsChars_cons_of_ascii ascii, byteBoundsFrom, if_neg noBlank, if_neg noName, if_neg noSign, ih,
      List.map_cons, stop]

/-- A token is what stands between its bounds. -/
theorem slice_of_mem_tokensFrom (front : List Char) {code back : List Char} {t : Token}
    (member : t ∈ tokensFrom (utf8Length front) code) :
    slice t.start t.stop (front ++ code ++ back) = .ok t.lexeme.text := by
  generalize start : utf8Length front = offset at member
  fun_induction tokensFrom offset code generalizing front with
  | case1 => simp at member
  | case2 offset c cs _ ih | case4 offset c cs _ _ _ ih =>
    have further := ih (front ++ [c]) (by simp [start]) member
    simpa using further
  | case3 offset c cs _ _ more =>
    rename_i ih
    rcases List.mem_cons.mp member with rfl | later
    · have piece := slice_append front (c :: more) (cs.dropWhile isIdentifierChar ++ back)
      simp only [more, List.append_assoc, List.cons_append] at piece
      rw [← List.append_assoc (cs.takeWhile isIdentifierChar), List.takeWhile_append_dropWhile] at piece
      simp only [Token.stop, text_lexemeOfRun, ← start, List.append_assoc, List.cons_append]
      exact piece
    · have further := ih (front ++ c :: more) (by simp [start]) later
      simp only [more, List.append_assoc, List.cons_append] at further
      rw [← List.append_assoc (cs.takeWhile isIdentifierChar), List.takeWhile_append_dropWhile] at further
      simpa using further
  | case5 offset c cs _ _ _ ih =>
    rcases List.mem_cons.mp member with rfl | later
    · have piece := slice_append front [c] (cs ++ back)
      simp only [Token.stop, Lexeme.text, ← start]
      simpa using piece
    · have further := ih (front ++ [c]) (by simp [start]) later
      simpa using further

/-- The bytes of a text that is held backwards, backwards. -/
def bytesBack (cs : List Char) : List Char := (bytesAsChars cs.reverse).reverse

theorem bytesBack_cons (c : Char) (cs : List Char) :
    bytesBack (c :: cs) = (byteChars c).reverse ++ bytesBack cs := by
  simp [bytesBack]

theorem bytesBack_cons_of_ascii {c : Char} (ascii : c.toNat < 0x80) (cs : List Char) :
    bytesBack (c :: cs) = c :: bytesBack cs := by
  rw [bytesBack_cons, byteChars_of_ascii ascii]
  rfl

theorem bytesBack_reverse (text : List Char) : bytesBack text.reverse = (bytesAsChars text).reverse := by
  rw [bytesBack, List.reverse_reverse]

theorem AllWide.reverse {bs : List Char} (wide : AllWide bs) : AllWide bs.reverse :=
  fun x member => wide x (List.mem_reverse.mp member)

theorem ReadsBytes.head?_any_back {p : Char → Bool} (reads : ReadsBytes p) (cs : List Char) :
    (bytesBack cs).head?.any p = cs.head?.any p := by
  cases cs with
  | nil => rfl
  | cons c cs =>
    obtain ⟨b, others, bytes⟩ :=
      List.exists_cons_of_ne_nil (l := (byteChars c).reverse) (by simp [byteChars_ne_nil])
    have inside : b ∈ byteChars c := List.mem_reverse.mp (by simp [bytes])
    rw [bytesBack_cons, bytes]
    simp [reads c b inside]

/-- What was read and what is left, in bytes. -/
def backToBytes (read : List Char × List Char) : List Char × List Char :=
  (bytesAsChars read.1, bytesBack read.2)

theorem groupBack_wide {opening closing : Char} (opens : opening.toNat < 0x80) (closes : closing.toNat < 0x80)
    {bs : List Char} (wide : AllWide bs) (depth : Nat) (taken tail : List Char) :
    groupBack opening closing depth taken (bs ++ tail) =
      groupBack opening closing depth (bs.reverse ++ taken) tail := by
  induction bs generalizing taken with
  | nil => rfl
  | cons b bs ih =>
    have noEnd : ¬ (b = ';' ∨ b = '\x7b' ∨ b = '\x7d') :=
      not_or.mpr ⟨wide.ne (by decide), not_or.mpr ⟨wide.ne (by decide), wide.ne (by decide)⟩⟩
    rw [List.cons_append, groupBack, if_neg (wide.ne closes), if_neg (wide.ne opens), if_neg noEnd, ih wide.tail]
    simp

theorem groupBack_bytesBack (opening closing : Char) (opens : opening.toNat < 0x80)
    (closes : closing.toNat < 0x80) (depth : Nat) (taken cs : List Char) :
    groupBack opening closing depth (bytesAsChars taken) (bytesBack cs) =
      (groupBack opening closing depth taken cs).map backToBytes := by
  induction cs generalizing depth taken with
  | nil => rfl
  | cons c cs ih =>
    by_cases ascii : c.toNat < 0x80
    · have further : ∀ depth, groupBack opening closing depth (c :: bytesAsChars taken) (bytesBack cs) =
          (groupBack opening closing depth (c :: taken) cs).map backToBytes := by
        intro depth
        rw [← bytesAsChars_cons_of_ascii ascii, ih]
      rw [bytesBack_cons_of_ascii ascii]
      simp only [groupBack, further]
      split
      · rfl
      · split
        · split
          · simp [backToBytes, bytesAsChars_cons_of_ascii ascii]
          · rfl
        · split <;> rfl
    · have outside : 0x80 ≤ c.toNat := by omega
      have wide := allWide_byteChars outside
      have here : AllWide [c] := by simpa [AllWide] using outside
      have step := groupBack_wide opens closes here depth taken cs
      rw [bytesBack_cons, groupBack_wide opens closes wide.reverse, List.reverse_reverse, ← bytesAsChars_cons, ih]
      exact congrArg (Option.map backToBytes) step.symm

theorem isTypeArgumentChar_of_wide {c : Char} (wide : 0x80 ≤ c.toNat) : isTypeArgumentChar c = true := by
  simp [isTypeArgumentChar, isIdentifierChar, wide]

theorem typeArgumentsBack_wide {bs : List Char} (wide : AllWide bs) (depth : Nat) (taken tail : List Char) :
    typeArgumentsBack depth taken (bs ++ tail) = typeArgumentsBack depth (bs.reverse ++ taken) tail := by
  induction bs generalizing taken with
  | nil => rfl
  | cons b bs ih =>
    have inside := isTypeArgumentChar_of_wide (wide b (List.mem_cons_self ..))
    rw [List.cons_append, typeArgumentsBack, if_neg (wide.ne (by decide)), if_neg (wide.ne (by decide)),
      if_pos inside, ih wide.tail]
    simp

theorem typeArgumentsBack_bytesBack (depth : Nat) (taken cs : List Char) :
    typeArgumentsBack depth (bytesAsChars taken) (bytesBack cs) =
      (typeArgumentsBack depth taken cs).map backToBytes := by
  induction cs generalizing depth taken with
  | nil => rfl
  | cons c cs ih =>
    by_cases ascii : c.toNat < 0x80
    · have further : ∀ depth, typeArgumentsBack depth (c :: bytesAsChars taken) (bytesBack cs) =
          (typeArgumentsBack depth (c :: taken) cs).map backToBytes := by
        intro depth
        rw [← bytesAsChars_cons_of_ascii ascii, ih]
      rw [bytesBack_cons_of_ascii ascii]
      simp only [typeArgumentsBack, further, readsBytes_isIdentifierChar.head?_any_back]
      split
      · rfl
      · split
        · split
          · split
            · simp [backToBytes, bytesAsChars_cons_of_ascii ascii]
            · rfl
          · rfl
        · split <;> rfl
    · have outside : 0x80 ≤ c.toNat := by omega
      have here : AllWide [c] := by simpa [AllWide] using outside
      have step := typeArgumentsBack_wide here depth taken cs
      rw [bytesBack_cons, typeArgumentsBack_wide (allWide_byteChars outside).reverse, List.reverse_reverse,
        ← bytesAsChars_cons, ih]
      exact congrArg (Option.map backToBytes) step.symm

/-- A step over a character of ASCII or over a group. -/
theorem stepBack_bytesBack {c : Char} (ascii : c.toNat < 0x80) (taken cs : List Char) :
    stepBack (bytesAsChars taken) (bytesBack (c :: cs)) = (stepBack taken (c :: cs)).map backToBytes := by
  have paren : (bytesAsChars taken).head? = some '(' ↔ taken.head? = some '(' := by
    have same := (readsBytes_eq '(' (by decide)).head?_any taken
    cases first : taken.head? <;> cases firstByte : (bytesAsChars taken).head? <;> simp_all
  rw [bytesBack_cons_of_ascii ascii]
  simp only [stepBack, paren, ← bytesBack_cons_of_ascii ascii,
    groupBack_bytesBack '(' ')' (by decide) (by decide),
    groupBack_bytesBack '[' ']' (by decide) (by decide),
    typeArgumentsBack_bytesBack]
  split
  · simp [backToBytes, bytesAsChars_cons_of_ascii ascii]
  · split
    · rfl
    · split
      · rfl
      · split <;> rfl

theorem entityBack_of_step {taken cs taken' rest : List Char} (step : stepBack taken cs = some (taken', rest)) :
    entityBack taken cs = entityBack taken' rest := by
  rw [entityBack]
  split
  · next none => simp [step] at none
  · next found =>
    rw [step] at found
    simp only [Option.some.injEq, Prod.mk.injEq] at found
    rw [found.1, found.2]

theorem entityBack_of_stop {taken cs : List Char} (stops : stepBack taken cs = none) :
    entityBack taken cs = taken := by
  rw [entityBack]
  split
  · rfl
  · next found => simp [stops] at found

theorem entityBack_wide {bs : List Char} (wide : AllWide bs) (taken tail : List Char) :
    entityBack taken (bs ++ tail) = entityBack (bs.reverse ++ taken) tail := by
  induction bs generalizing taken with
  | nil => rfl
  | cons b bs ih =>
    have name : (isIdentifierChar b || b == '.') = true := by
      simp [isIdentifierChar, wide b (List.mem_cons_self ..)]
    have step : stepBack taken (b :: (bs ++ tail)) = some (b :: taken, bs ++ tail) := by
      simp only [stepBack, if_pos name]
    rw [List.cons_append, entityBack_of_step step, ih wide.tail]
    simp

theorem entityBack_bytesBack (taken cs : List Char) :
    entityBack (bytesAsChars taken) (bytesBack cs) = bytesAsChars (entityBack taken cs) := by
  fun_induction entityBack taken cs with
  | case1 taken cs stops =>
    cases cs with
    | nil => exact entityBack_of_stop rfl
    | cons c cs =>
      have ascii : c.toNat < 0x80 := by
        apply ascii_of_not_isIdentifierChar
        cases name : isIdentifierChar c with
        | false => rfl
        | true => simp [stepBack, name] at stops
      exact entityBack_of_stop (by rw [stepBack_bytesBack ascii, stops]; rfl)
  | case2 taken cs taken' rest step ih =>
    cases cs with
    | nil => simp [stepBack] at step
    | cons c cs =>
      by_cases ascii : c.toNat < 0x80
      · rw [entityBack_of_step (by rw [stepBack_bytesBack ascii, step]; rfl)]
        exact ih
      · have name : isIdentifierChar c = true := by
          simp only [isIdentifierChar, Bool.or_eq_true, decide_eq_true_eq]
          omega
        simp only [stepBack, name, Bool.true_or, if_true, Option.some.injEq, Prod.mk.injEq] at step
        obtain ⟨rfl, rfl⟩ := step
        rw [bytesBack_cons, entityBack_wide (allWide_byteChars (by omega)).reverse, List.reverse_reverse,
          ← bytesAsChars_cons]
        exact ih

theorem splitLastDot_wide {bs : List Char} (wide : AllWide bs) (depth : Int) (tail : List Char) :
    splitLastDot depth (bs ++ tail) =
      (splitLastDot depth tail).map fun (earlier, later) => (bs ++ earlier, later) := by
  induction bs with
  | nil => simp
  | cons b bs ih =>
    have noOpening : ¬ (b = '(' ∨ b = '[' ∨ b = '<') :=
      not_or.mpr ⟨wide.ne (by decide), not_or.mpr ⟨wide.ne (by decide), wide.ne (by decide)⟩⟩
    have noClosing : ¬ (b = ')' ∨ b = ']' ∨ b = '>') :=
      not_or.mpr ⟨wide.ne (by decide), not_or.mpr ⟨wide.ne (by decide), wide.ne (by decide)⟩⟩
    have noDot : ¬ (b = '.' ∧ depth = 0) := fun both => absurd both.1 (wide.ne (by decide))
    simp only [List.cons_append, splitLastDot, if_neg noOpening, if_neg noClosing, ih wide.tail]
    cases splitLastDot depth tail with
    | none => simp [noDot]
    | some found => rfl

theorem splitLastDot_bytesAsChars (depth : Int) (cs : List Char) :
    splitLastDot depth (bytesAsChars cs) =
      (splitLastDot depth cs).map fun (earlier, later) => (bytesAsChars earlier, bytesAsChars later) := by
  induction cs generalizing depth with
  | nil => rfl
  | cons c cs ih =>
    by_cases ascii : c.toNat < 0x80
    · rw [bytesAsChars_cons_of_ascii ascii]
      simp only [splitLastDot, ih]
      generalize (if c = '(' ∨ c = '[' ∨ c = '<' then depth + 1
        else if c = ')' ∨ c = ']' ∨ c = '>' then depth - 1 else depth) = deeper
      cases splitLastDot deeper cs with
      | none =>
        by_cases dot : c = '.' ∧ depth = 0
        · simp [dot]
        · simp [dot]
      | some found => simp [bytesAsChars_cons_of_ascii ascii]
    · have outside : 0x80 ≤ c.toNat := by omega
      have here : AllWide [c] := by simpa [AllWide] using outside
      have step := splitLastDot_wide here depth cs
      rw [List.singleton_append] at step
      rw [bytesAsChars_cons, splitLastDot_wide (allWide_byteChars outside), ih, step]
      cases splitLastDot depth cs <;> simp

/-- A text in its bytes. -/
def inBytes (text : String) : String := String.ofList (bytesAsChars text.toList)

theorem Target.of_bytesAsChars (text : List Char) :
    Target.of (bytesAsChars text) =
      ⟨inBytes (Target.of text).entity, inBytes (Target.of text).chain, inBytes (Target.of text).lookAhead⟩ := by
  have entity := entityBack_bytesBack [] text.reverse
  rw [bytesAsChars_nil, bytesBack_reverse] at entity
  simp only [Target.of, entity, splitLastDot_bytesAsChars]
  cases splitLastDot 0 (entityBack [] text.reverse) with
  | none => simp [inBytes]
  | some parts => simp [inBytes]

end Typeahead.Source
