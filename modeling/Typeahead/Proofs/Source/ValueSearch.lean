import Typeahead.Proofs.Source.Statement

namespace Typeahead.Source

/-- Words in front of a list in parentheses that can declare a local. -/
def headerWords : List String := ["foreach", "catch", "using", "for", "fixed"]

/-- The code of an expression. Outside its blocks in braces it has no semicolon and no word of a header. -/
inductive ValueCode : List Lexeme → Prop
  | nil : ValueCode []
  | plain {l : Lexeme} {later : List Lexeme} (bare : l.IsPlain) (unended : l ≠ .mark ';')
      (apart : ∀ word ∈ headerWords, l ≠ .word word) (rest : ValueCode later) : ValueCode (l :: later)
  | group (kind : Bracket) (unbraced : kind ≠ .brace) {inside later : List Lexeme} (inner : ValueCode inside)
      (rest : ValueCode later) : ValueCode (.mark kind.opening :: (inside ++ .mark kind.closing :: later))
  | block {inside later : List Lexeme} (inner : Nested inside) (rest : ValueCode later) :
      ValueCode (.mark '{' :: (inside ++ .mark '}' :: later))

/-- A place in a value, told by the code in front of it, where a local of its own can be declared: inside a
block in braces, behind the word `out`, or right behind a block. -/
inductive IsAside : List Token → Prop
  | inBlock (front : List Token) {inside : List Token} {opening : Token} (isOpening : opening.lexeme = .mark '{')
      (unclosed : closerFrom .brace 0 inside = none) : IsAside (front ++ opening :: inside)
  | behindOut (front : List Token) {out : Token} (isOut : out.lexeme = .word "out") : IsAside (front ++ [out])
  | behindBlock (front : List Token) {closing : Token} (isClosing : closing.lexeme = .mark '}') :
      IsAside (front ++ [closing])

/-- The two tokens in front of the place behind `ts`. -/
def placeBehind : Option Token → Token → List Token → Option Token × Token
  | before, previous, [] => (before, previous)
  | _, previous, t :: ts => placeBehind (some previous) t ts

/-- The search reads the local at a place in `ts`, in front of `rest`, that satisfies `P`. -/
def FoundAt (P : List Token → Prop) (scan : Scan) (isStatic : Bool) (before : Option Token) (previous : Token)
    (ts rest : List Token) (v : Variable) : Prop :=
  ∃ front t back stop, ts = front ++ t :: back ∧ P (previous :: front) ∧
    v ∈ localsAt scan ⟨stop, isStatic⟩ (placeBehind before previous front).1 (placeBehind before previous front).2
      (t :: (back ++ rest))

/-- The search goes past `ts` in the same blocks, and finds locals at places that satisfy `P` only. -/
def Passes (P : List Token → Prop) (before : Option Token) (previous : Token) (ts : List Token) : Prop :=
  ∀ scan isStatic outer n blocks rest, ∃ found,
    localsFrom scan isStatic outer (ts.length + n) blocks before previous (ts ++ rest) =
        found ++ localsFrom scan isStatic outer n blocks (placeBehind before previous ts).1
          (placeBehind before previous ts).2 rest ∧
      ∀ v ∈ found, FoundAt P scan isStatic before previous ts rest v

variable {P Q : List Token → Prop} {before : Option Token} {previous t opening closing : Token}
  {ts ms front inside rest : List Token} {ls : List Lexeme} {scan : Scan} {isStatic : Bool} {scope : LocalScope}

theorem ValueCode.nested (code : ValueCode ls) : Nested ls := by
  induction code with
  | nil => exact .nil
  | plain bare _ _ _ ih => exact .plain bare ih
  | group kind _ _ _ inner rest => exact .group kind inner rest
  | block inner _ rest => exact .group .brace inner rest

theorem IsAside.cons (aside : IsAside ts) (t : Token) : IsAside (t :: ts) := by
  cases aside with
  | inBlock front isOpening unclosed => exact .inBlock (t :: front) isOpening unclosed
  | behindOut front isOut => exact .behindOut (t :: front) isOut
  | behindBlock front isClosing => exact .behindBlock (t :: front) isClosing

theorem IsAside.append_left (front ts : List Token) (aside : IsAside ts) : IsAside (front ++ ts) := by
  induction front with
  | nil => exact aside
  | cons t front ih => exact ih.cons t

theorem placeBehind_append (before : Option Token) (previous : Token) (ts ms : List Token) :
    placeBehind before previous (ts ++ ms) =
      placeBehind (placeBehind before previous ts).1 (placeBehind before previous ts).2 ms := by
  induction ts generalizing before previous with
  | nil => rfl
  | cons t ts ih => exact ih (some previous) t

theorem exists_placeBehind (before : Option Token) (previous : Token) (ts : List Token) :
    ∃ front, previous :: ts = front ++ [(placeBehind before previous ts).2] := by
  induction ts generalizing before previous with
  | nil => exact ⟨[], rfl⟩
  | cons t ts ih =>
    obtain ⟨front, eq⟩ := ih (some previous) t
    exact ⟨previous :: front, congrArg (previous :: ·) eq⟩

theorem passes_nil : Passes P before previous [] := fun scan isStatic outer n blocks rest =>
  ⟨[], by rw [List.length_nil, Nat.zero_add]; rfl, by simp⟩

section Parts

variable (extends_left : ∀ front ts, P ts → P (front ++ ts))
include extends_left

/-- One token that is no brace. -/
theorem Passes.cons (notOpening : t.lexeme ≠ .mark '{') (notClosing : t.lexeme ≠ .mark '}')
    (here : ∀ scan scope rest, ∀ v ∈ localsAt scan scope before previous (t :: (ts ++ rest)), P [previous])
    (later : Passes P (some previous) t ts) : Passes P before previous (t :: ts) := by
  intro scan isStatic outer n blocks rest
  obtain ⟨found, run, places⟩ := later scan isStatic outer n blocks rest
  have count : (t :: ts).length + n = ts.length + n + 1 := by simp only [List.length_cons]; omega
  refine ⟨localsAt scan ⟨blocks.headD outer, isStatic⟩ before previous (t :: (ts ++ rest)) ++ found, ?_, ?_⟩
  · rw [count, List.cons_append, localsFrom, isMark_eq_false notOpening, isMark_eq_false notClosing]
    simp only [Bool.false_eq_true, if_false]
    rw [run, List.append_assoc]
    rfl
  · intro v inside
    rcases List.mem_append.mp inside with now | after
    · exact ⟨[], t, ts, _, rfl, here _ _ _ v now, now⟩
    · obtain ⟨front, u, back, stop, eq, place, read⟩ := places v after
      exact ⟨t :: front, u, back, stop, congrArg (t :: ·) eq, extends_left [previous] _ place, read⟩

theorem Passes.append (first : Passes P before previous ts)
    (second : Passes P (placeBehind before previous ts).1 (placeBehind before previous ts).2 ms) :
    Passes P before previous (ts ++ ms) := by
  intro scan isStatic outer n blocks rest
  obtain ⟨found, run, places⟩ := first scan isStatic outer (ms.length + n) blocks (ms ++ rest)
  obtain ⟨found', run', places'⟩ := second scan isStatic outer n blocks rest
  refine ⟨found ++ found', ?_, fun v inside => ?_⟩
  · rw [List.length_append, Nat.add_assoc, List.append_assoc, run, run', placeBehind_append, List.append_assoc]
  · rcases List.mem_append.mp inside with now | after
    · obtain ⟨front, t, back, stop, rfl, place, read⟩ := places v now
      exact ⟨front, t, back ++ ms, stop, by simp, place, by simpa using read⟩
    · obtain ⟨front, t, back, stop, rfl, place, read⟩ := places' v after
      obtain ⟨others, eq⟩ := exists_placeBehind before previous ts
      refine ⟨ts ++ front, t, back, stop, by simp, ?_, by rw [placeBehind_append]; exact read⟩
      rw [← List.cons_append, eq, List.append_assoc]
      exact extends_left others _ place

omit extends_left in
/-- A block in braces; its locals hold to its end, and the blocks around it are those of before. -/
theorem Passes.braces (isOpening : opening.lexeme = .mark '{') (isClosing : closing.lexeme = .mark '}')
    (inner : Passes Q (some previous) opening inside)
    (places : ∀ front, front <+: inside → Q (opening :: front) → P (previous :: opening :: front)) :
    Passes P before previous (opening :: (inside ++ [closing])) := by
  intro scan isStatic outer n blocks rest
  obtain ⟨found, run, within⟩ := inner scan isStatic outer (n + 1)
    (scan.closeOffset .brace (inside ++ closing :: rest) :: blocks) (closing :: rest)
  have count : (opening :: (inside ++ [closing])).length + n = inside.length + (n + 1) + 1 := by
    simp only [List.length_append, List.length_cons, List.length_nil]
    omega
  have notOpening : closing.lexeme ≠ .mark '{' := by simp [isClosing]
  refine ⟨found, ?_, fun v inside => ?_⟩
  · rw [count, List.cons_append, List.append_assoc, List.singleton_append, localsFrom, isMark_of_eq isOpening]
    simp only [if_true]
    rw [run, localsFrom, isMark_eq_false notOpening, isMark_of_eq isClosing, placeBehind, placeBehind_append]
    rfl
  · obtain ⟨front, t, back, stop, rfl, place, read⟩ := within v inside
    exact ⟨opening :: front, t, back ++ [closing], stop, by simp, places front (List.prefix_append _ _) place,
      by simpa [placeBehind] using read⟩

/-- A word behind a word, which is not `out`. -/
theorem Passes.word {word next : String} (isWord : previous.lexeme = .word word) (other : word ≠ "out")
    (isNext : t.lexeme = .word next) (later : Passes P (some previous) t ts) : Passes P before previous (t :: ts) :=
  .cons extends_left (by simp [isNext]) (by simp [isNext])
    (fun _ _ _ _ read => by simp [localsAt, Token.isMark, Token.word?, isWord, other] at read) later

/-- A mark that is no brace. -/
theorem Passes.mark {c : Char} (isMark : t.lexeme = .mark c) (bare : c ∉ ['{', '}'])
    (later : Passes P (some previous) t ts) : Passes P before previous (t :: ts) := by
  simp only [List.mem_cons, List.not_mem_nil, or_false, not_or] at bare
  exact .cons extends_left (by simpa [isMark] using bare.1) (by simpa [isMark] using bare.2)
    (fun _ _ _ _ read => by simp [localsAt_mark isMark] at read) later

/-- The rest of a type. -/
theorem passes_inert (chain : List.IsChain Inert (previous.lexeme :: ts.map (·.lexeme))) :
    Passes P before previous ts := by
  induction ts generalizing before previous with
  | nil => exact passes_nil
  | cons t ts ih =>
    rw [List.map_cons, List.isChain_cons_cons] at chain
    obtain ⟨inert, chain⟩ := chain
    cases isNext : t.lexeme with
    | number text =>
      rw [isNext] at inert
      exact (not_inert_number inert).elim
    | mark d =>
      rw [isNext] at inert
      exact .mark extends_left isNext (by simpa using not_brace_of_inert inert) (ih chain)
    | word text =>
      rw [isNext] at inert
      obtain ⟨c, isMark, inside⟩ := exists_mark_of_inert inert
      exact .cons extends_left (by simp [isNext]) (by simp [isNext])
        (fun _ _ _ _ read => by simp [localsAt_of_mark_before isMark inside] at read) (ih chain)

end Parts

/-- Wherever locals are found in nested code, the search leaves it in the blocks in which it came to it. -/
theorem passes_nested (nested : Nested ls) (before : Option Token) (previous : Token)
    (spelled : ts.map (·.lexeme) = ls) : Passes (fun _ => True) before previous ts := by
  induction nested generalizing ts before previous with
  | nil =>
    obtain rfl := List.map_eq_nil_iff.mp spelled
    exact passes_nil
  | plain bare _ ih =>
    obtain ⟨t, more, rfl, rfl, after⟩ := List.map_eq_cons_iff.mp spelled
    exact .cons (fun _ _ => id) (bare .brace).1 (bare .brace).2 (fun _ _ _ _ _ => trivial) (ih _ _ after)
  | group kind _ _ inner later =>
    obtain ⟨opening, more, rfl, isOpening, tail⟩ := List.map_eq_cons_iff.mp spelled
    obtain ⟨inside, more, rfl, spelledInner, tail⟩ := List.map_eq_append_iff.mp tail
    obtain ⟨closing, more, rfl, isClosing, after⟩ := List.map_eq_cons_iff.mp tail
    have inside' := inner (some previous) opening spelledInner
    have split : opening :: (inside ++ closing :: more) = opening :: (inside ++ [closing]) ++ more := by simp
    rw [split]
    refine .append (fun _ _ => id) ?_ (later _ _ after)
    cases kind with
    | brace => exact .braces isOpening isClosing inside' fun _ _ => id
    | paren | square =>
      refine .mark (fun _ _ => id) isOpening (by decide) (.append (fun _ _ => id) inside' ?_)
      exact .mark (fun _ _ => id) isClosing (by decide) passes_nil

/-- The place starts neither a statement nor a header, and no header starts with a parenthesis there. -/
structure Settled (before : Option Token) (previous : Token) : Prop where
  unopened : previous.lexeme ≠ .mark '{'
  unended : previous.lexeme ≠ .mark ';'
  apart : ∀ word ∈ headerWords, previous.lexeme ≠ .word word
  listed : previous.lexeme = .mark '(' → ∀ token ∈ before, ∀ word ∈ headerWords, token.lexeme ≠ .word word

theorem headerLocals_of_not_header {keyword : String} (other : keyword ∉ headerWords) :
    headerLocals scan isStatic keyword ts = [] := by
  simp only [headerWords, List.mem_cons, List.not_mem_nil, or_false, not_or] at other
  unfold headerLocals
  split
  · rfl
  · split
    · rfl
    · simp [other]

/-- What is read at a settled place is read behind a block or as an `out` argument. -/
theorem Settled.isAside (settled : Settled before previous) {v : Variable}
    (read : v ∈ localsAt scan scope before previous ts) : IsAside [previous] := by
  unfold localsAt at read
  split at read
  · next starts =>
    have closing : previous.lexeme = .mark '}' := by
      simpa [Token.isMark, settled.unopened, settled.unended] using starts
    exact .behindBlock [] closing
  · split at read
    · next isParen =>
      split at read
      · next keyword isWord =>
        obtain ⟨token, rfl, isWord⟩ := Option.bind_eq_some_iff.mp isWord
        have other : keyword ∉ headerWords := fun header =>
          settled.listed (by simpa [Token.isMark] using isParen) token rfl keyword header (lexeme_of_word? isWord)
        rw [headerLocals_of_not_header other] at read
        exact absurd read List.not_mem_nil
      · exact absurd read List.not_mem_nil
    · split at read
      · next isOut => exact .behindOut [] (lexeme_of_word? (by simpa using isOut))
      · exact absurd read List.not_mem_nil

/-- The search goes past a value, and what it finds in it stands aside. -/
theorem passes_value (code : ValueCode ls) (spelled : ts.map (·.lexeme) = ls) (settled : Settled before previous) :
    Passes IsAside before previous ts := by
  induction code generalizing ts before previous with
  | nil =>
    obtain rfl := List.map_eq_nil_iff.mp spelled
    exact passes_nil
  | plain bare unended apart _ ih =>
    obtain ⟨t, more, rfl, rfl, after⟩ := List.map_eq_cons_iff.mp spelled
    refine .cons IsAside.append_left (bare .brace).1 (bare .brace).2 (fun _ _ _ _ => settled.isAside) (ih after ?_)
    exact ⟨(bare .brace).1, unended, apart, fun isParen => absurd isParen (bare .paren).1⟩
  | group kind unbraced _ _ inner later =>
    obtain ⟨opening, more, rfl, isOpening, tail⟩ := List.map_eq_cons_iff.mp spelled
    obtain ⟨inside, more, rfl, spelledInner, tail⟩ := List.map_eq_append_iff.mp tail
    obtain ⟨closing, more, rfl, isClosing, after⟩ := List.map_eq_cons_iff.mp tail
    have bare : kind.opening ∉ ['{', '}', ';'] ∧ kind.closing ∉ ['{', '}', ';', '('] := by
      cases kind <;> first | exact absurd rfl unbraced | decide
    simp only [List.mem_cons, List.not_mem_nil, or_false, not_or] at bare
    have opened : Settled (some previous) opening := by
      refine ⟨by simp [isOpening, bare], by simp [isOpening, bare], by simp [isOpening], fun _ token eq => ?_⟩
      obtain rfl := Option.some.inj eq
      exact settled.apart
    have closed (before : Option Token) : Settled before closing :=
      ⟨by simp [isClosing, bare], by simp [isClosing, bare], by simp [isClosing], by simp [isClosing, bare]⟩
    refine .mark IsAside.append_left isOpening (by simp [bare]) ?_
    refine .append IsAside.append_left (inner spelledInner opened) ?_
    exact .mark IsAside.append_left isClosing (by simp [bare]) (later after (closed _))
  | block inner _ later =>
    obtain ⟨opening, more, rfl, isOpening, tail⟩ := List.map_eq_cons_iff.mp spelled
    obtain ⟨inside, more, rfl, spelledInner, tail⟩ := List.map_eq_append_iff.mp tail
    obtain ⟨closing, more, rfl, isClosing, after⟩ := List.map_eq_cons_iff.mp tail
    have split : opening :: (inside ++ closing :: more) = opening :: (inside ++ [closing]) ++ more := by simp
    rw [split]
    have inside' := passes_nested inner (some previous) opening spelledInner
    refine .append IsAside.append_left (.braces isOpening isClosing inside' ?_) (later after ?_)
    · intro front start _
      exact .inBlock [previous] isOpening (closerFrom_start (spelledInner ▸ inner) start)
    · have last : (placeBehind before previous (opening :: (inside ++ [closing]))).2 = closing := by
        rw [placeBehind, placeBehind_append]
        rfl
      rw [last]
      exact ⟨by simp [isClosing], by simp [isClosing], by simp [isClosing], by simp [isClosing]⟩

end Typeahead.Source
