import Typeahead.Text.Offset

namespace Typeahead.Source

open Text

inductive RegionKind where
  | lineComment
  | blockComment
  | literal
  deriving DecidableEq, Repr

/-- A comment with its delimiters, or the body of a string or character literal without its quotes. -/
structure Region where
  kind : RegionKind
  start : Nat
  stop : Nat
  deriving DecidableEq, Repr

/-- A caret is inside a line comment also at its end, inside a block comment only between its ends, and
inside a literal also at both quotes. -/
def Region.contains (r : Region) (caret : Nat) : Bool :=
  match r.kind with
  | .lineComment => r.start < caret && caret ≤ r.stop
  | .blockComment => r.start < caret && caret < r.stop
  | .literal => r.start ≤ caret && caret ≤ r.stop

/-- A stretch of source: code when it has no kind. -/
structure Piece where
  kind : Option RegionKind
  text : List Char
  deriving DecidableEq, Repr

/-- The body of a block comment, its closing delimiter included, and what follows. -/
def blockBody : List Char → List Char × List Char
  | [] => ([], [])
  | '*' :: '/' :: rest => (['*', '/'], rest)
  | c :: rest => let (body, later) := blockBody rest; (c :: body, later)

/-- The body of an ordinary literal: up to its quote or the line break, a backslash taking the
character after it along. -/
def ordinaryBody (quote : Char) : List Char → List Char × List Char
  | [] => ([], [])
  | ['\\'] => (['\\'], [])
  | '\\' :: c :: rest => let (body, later) := ordinaryBody quote rest; ('\\' :: c :: body, later)
  | c :: rest =>
    if c = quote ∨ c = '\n' then ([], c :: rest)
    else let (body, later) := ordinaryBody quote rest; (c :: body, later)

/-- The body of a verbatim string: up to a double quote that is not doubled. -/
def verbatimBody : List Char → List Char × List Char
  | [] => ([], [])
  | '"' :: '"' :: rest => let (body, later) := verbatimBody rest; ('"' :: '"' :: body, later)
  | c :: rest =>
    if c = '"' then ([], c :: rest)
    else let (body, later) := verbatimBody rest; (c :: body, later)

theorem blockBody_append (cs : List Char) : (blockBody cs).1 ++ (blockBody cs).2 = cs := by
  fun_induction blockBody cs <;> simp_all

theorem ordinaryBody_append (quote : Char) (cs : List Char) :
    (ordinaryBody quote cs).1 ++ (ordinaryBody quote cs).2 = cs := by
  fun_induction ordinaryBody quote cs <;> simp_all

theorem verbatimBody_append (cs : List Char) : (verbatimBody cs).1 ++ (verbatimBody cs).2 = cs := by
  fun_induction verbatimBody cs <;> simp_all

theorem blockBody_length_le (cs : List Char) : (blockBody cs).2.length ≤ cs.length := by
  have := congrArg List.length (blockBody_append cs)
  simp only [List.length_append] at this; omega

theorem ordinaryBody_length_le (quote : Char) (cs : List Char) :
    (ordinaryBody quote cs).2.length ≤ cs.length := by
  have := congrArg List.length (ordinaryBody_append quote cs)
  simp only [List.length_append] at this; omega

theorem verbatimBody_length_le (cs : List Char) : (verbatimBody cs).2.length ≤ cs.length := by
  have := congrArg List.length (verbatimBody_append cs)
  simp only [List.length_append] at this; omega

theorem dropWhile_length_le (p : Char → Bool) (cs : List Char) :
    (cs.dropWhile p).length ≤ cs.length := (List.dropWhile_sublist p).length_le

def code (c : Char) : Piece := ⟨none, [c]⟩

/-- The pieces of a literal whose opening quote has been read, and what follows its closing quote. A
literal that ends at a line break or at the end of the text has no closing quote. -/
def literalPieces (quote : Char) (body rest : List Char) : List Piece × List Char :=
  match rest with
  | [] => ([⟨some .literal, body⟩], [])
  | c :: later =>
    if c = quote then ([⟨some .literal, body⟩, code c], later)
    else ([⟨some .literal, body⟩], c :: later)

theorem literalPieces_length_le (quote : Char) (body rest : List Char) :
    (literalPieces quote body rest).2.length ≤ rest.length := by
  unfold literalPieces; split
  · simp
  · split <;> simp

/-- The source in pieces, from its start. -/
def pieces : List Char → List Piece
  | [] => []
  | '/' :: '/' :: rest =>
    ⟨some .lineComment, '/' :: '/' :: rest.takeWhile (· ≠ '\n')⟩ :: pieces (rest.dropWhile (· ≠ '\n'))
  | '/' :: '*' :: rest =>
    ⟨some .blockComment, '/' :: '*' :: (blockBody rest).1⟩ :: pieces (blockBody rest).2
  | '@' :: '"' :: rest =>
    let read := literalPieces '"' (verbatimBody rest).1 (verbatimBody rest).2
    code '@' :: code '"' :: read.1 ++ pieces read.2
  | '@' :: '$' :: '"' :: rest =>
    let read := literalPieces '"' (verbatimBody rest).1 (verbatimBody rest).2
    code '@' :: code '$' :: code '"' :: read.1 ++ pieces read.2
  | c :: rest =>
    if c = '"' ∨ c = '\'' then
      let read := literalPieces c (ordinaryBody c rest).1 (ordinaryBody c rest).2
      code c :: read.1 ++ pieces read.2
    else code c :: pieces rest
termination_by cs => cs.length
decreasing_by
  · have := dropWhile_length_le (· ≠ '\n') rest; simp only [List.length_cons]; omega
  · have := blockBody_length_le rest; simp only [List.length_cons]; omega
  · have := literalPieces_length_le '"' (verbatimBody rest).1 (verbatimBody rest).2
    have := verbatimBody_length_le rest; simp only [List.length_cons]; omega
  · have := literalPieces_length_le '"' (verbatimBody rest).1 (verbatimBody rest).2
    have := verbatimBody_length_le rest; simp only [List.length_cons]; omega
  · have := literalPieces_length_le c (ordinaryBody c rest).1 (ordinaryBody c rest).2
    have := ordinaryBody_length_le c rest; simp only [List.length_cons]; omega
  · simp

theorem literalPieces_text (quote : Char) (body rest : List Char) :
    (literalPieces quote body rest).1.flatMap Piece.text ++ (literalPieces quote body rest).2 =
      body ++ rest := by
  unfold literalPieces; split
  · simp
  · split <;> simp [code]

/-- Nothing is lost: the pieces concatenate to the source. -/
theorem flatMap_text_pieces (cs : List Char) : (pieces cs).flatMap Piece.text = cs := by
  fun_induction pieces cs with
  | case1 => rfl
  | case2 rest ih =>
    rw [List.flatMap_cons, ih]
    simp only [List.cons_append, List.takeWhile_append_dropWhile]
  | case3 rest ih => rw [List.flatMap_cons, ih]; simp only [List.cons_append, blockBody_append]
  | case4 rest read ih =>
    have := literalPieces_text '"' (verbatimBody rest).1 (verbatimBody rest).2
    rw [verbatimBody_append] at this
    simp only [read] at ih
    simp only [List.flatMap_cons, List.cons_append, List.flatMap_append, code, ih, read, this,
      List.nil_append]
  | case5 rest read ih =>
    have := literalPieces_text '"' (verbatimBody rest).1 (verbatimBody rest).2
    rw [verbatimBody_append] at this
    simp only [read] at ih
    simp only [List.flatMap_cons, List.cons_append, List.flatMap_append, code, ih, read, this,
      List.nil_append]
  | case6 c rest _ _ _ _ _ read ih =>
    have := literalPieces_text c (ordinaryBody c rest).1 (ordinaryBody c rest).2
    rw [ordinaryBody_append] at this
    simp only [read] at ih
    simp only [List.flatMap_cons, List.cons_append, List.flatMap_append, code, ih, read, this,
      List.nil_append]
  | case7 c rest _ _ _ _ _ ih => simp [code, ih]

def regionsFrom (offset : Nat) : List Piece → List Region
  | [] => []
  | p :: ps =>
    let stop := offset + utf8Length p.text
    match p.kind with
    | some kind => ⟨kind, offset, stop⟩ :: regionsFrom stop ps
    | none => regionsFrom stop ps

/-- The comments and literal bodies of a source, in order. -/
def regions (source : List Char) : List Region := regionsFrom 0 (pieces source)

def inCommentOrLiteral (source : List Char) (caret : Nat) : Bool :=
  (regions source).any (·.contains caret)

/-- Line breaks stay; any other character becomes as many spaces as it has bytes. -/
def blankChar (c : Char) : List Char :=
  if c = '\n' ∨ c = '\r' then [c] else List.replicate c.utf8Size ' '

def Piece.blanked (p : Piece) : List Char :=
  match p.kind with
  | none => p.text
  | some _ => p.text.flatMap blankChar

/-- The source with every comment and literal body blanked. -/
def blank (source : List Char) : List Char := (pieces source).flatMap Piece.blanked

theorem utf8Length_replicate_space (n : Nat) : utf8Length (List.replicate n ' ') = n := by
  induction n with
  | zero => rfl
  | succ n ih =>
    have one : ' '.utf8Size = 1 := rfl
    simp only [List.replicate_succ, utf8Length_cons, ih, one]; omega

theorem utf8Length_blankChar (c : Char) : utf8Length (blankChar c) = c.utf8Size := by
  unfold blankChar; split
  · simp
  · exact utf8Length_replicate_space _

theorem utf8Length_flatMap_blankChar (cs : List Char) :
    utf8Length (cs.flatMap blankChar) = utf8Length cs := by
  induction cs with
  | nil => rfl
  | cons c cs ih => simp [ih, utf8Length_blankChar]

theorem Piece.utf8Length_blanked (p : Piece) : utf8Length p.blanked = utf8Length p.text := by
  unfold Piece.blanked; split
  · rfl
  · exact utf8Length_flatMap_blankChar _

/-- Blanking keeps every offset: the length in bytes does not change. -/
theorem utf8Length_blank (source : List Char) : utf8Length (blank source) = utf8Length source := by
  have keep : ∀ ps : List Piece,
      utf8Length (ps.flatMap Piece.blanked) = utf8Length (ps.flatMap Piece.text) := by
    intro ps
    induction ps with
    | nil => rfl
    | cons p ps ih => simp [ih, Piece.utf8Length_blanked]
  rw [blank, keep, flatMap_text_pieces]

end Typeahead.Source
