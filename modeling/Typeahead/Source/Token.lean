import Typeahead.Text.Blank
import Typeahead.Text.Place

namespace Typeahead.Source

open Text

/-- A token without its place. -/
inductive Lexeme where
  /-- A run of identifier characters that does not start with a digit. -/
  | word (text : String)
  /-- A run of identifier characters that starts with a digit. -/
  | number (text : String)
  | mark (c : Char)
  deriving DecidableEq, Repr

/-- A token of blanked code. The code that follows a position is held as the list of the tokens from there on. -/
structure Token where
  lexeme : Lexeme
  start : Nat
  deriving DecidableEq, Repr

def Token.isMark (c : Char) (t : Token) : Bool := t.lexeme == .mark c

def Token.word? (t : Token) : Option String :=
  match t.lexeme with
  | .word text => some text
  | _ => none

def lexemeOfRun (run : List Char) : Lexeme :=
  if run.head?.any Char.isDigit then .number (String.ofList run) else .word (String.ofList run)

/-- The tokens of a text that starts at `offset`. The sign of a verbatim identifier is dropped. -/
def tokensFrom (offset : Nat) : List Char → List Token
  | [] => []
  | c :: cs =>
    if isAsciiBlank c then tokensFrom (offset + c.utf8Size) cs
    else if isIdentifierChar c then
      let more := cs.takeWhile isIdentifierChar
      ⟨lexemeOfRun (c :: more), offset⟩ ::
        tokensFrom (offset + utf8Length (c :: more)) (cs.dropWhile isIdentifierChar)
    else if c = '@' ∧ cs.head?.any isIdentifierChar then tokensFrom (offset + c.utf8Size) cs
    else ⟨.mark c, offset⟩ :: tokensFrom (offset + c.utf8Size) cs
termination_by cs => cs.length
decreasing_by
  · simp
  · have := (List.dropWhile_sublist isIdentifierChar (l := cs)).length_le
    simp only [List.length_cons]; omega
  · simp
  · simp

/-- The next token is the mark `c`. -/
def nextIs (c : Char) (ts : List Token) : Bool := ts.head?.any (·.isMark c)

/-- The next token, when it is a word. -/
def nextWord? (ts : List Token) : Option String := ts.head?.bind Token.word?

inductive Bracket where
  | brace
  | paren
  | square
  deriving DecidableEq, Repr

def Bracket.opening : Bracket → Char
  | .brace => '{'
  | .paren => '('
  | .square => '['

def Bracket.closing : Bracket → Char
  | .brace => '}'
  | .paren => ')'
  | .square => ']'

/-- The bracket that a token opens. -/
def Token.opens? (t : Token) : Option Bracket :=
  if t.isMark '{' then some .brace
  else if t.isMark '(' then some .paren
  else if t.isMark '[' then some .square
  else none

def Token.closesAny (t : Token) : Bool := t.isMark '}' || t.isMark ')' || t.isMark ']'

/-- The tokens from the one that closes `depth` brackets of a kind and the one opened before the list.
Brackets of the other kinds do not count. -/
def closerFrom (kind : Bracket) (depth : Nat) : List Token → Option (List Token)
  | [] => none
  | t :: ts =>
    if t.isMark kind.opening then closerFrom kind (depth + 1) ts
    else if t.isMark kind.closing then
      match depth with
      | 0 => some (t :: ts)
      | depth + 1 => closerFrom kind depth ts
    else closerFrom kind depth ts

theorem closerFrom_length_le {kind : Bracket} {depth : Nat} {ts found : List Token}
    (h : closerFrom kind depth ts = some found) : found.length ≤ ts.length := by
  induction ts generalizing depth with
  | nil => simp [closerFrom] at h
  | cons t ts ih =>
    simp only [closerFrom] at h
    split at h
    · have := ih h; simp only [List.length_cons]; omega
    · split at h
      · split at h
        · simp only [Option.some.injEq] at h; simp [← h]
        · have := ih h; simp only [List.length_cons]; omega
      · have := ih h; simp only [List.length_cons]; omega

/-- The tokens from the closing bracket on, for the tokens after an opening one; none left when it is
never closed. -/
def fromCloser (kind : Bracket) (ts : List Token) : List Token := (closerFrom kind 0 ts).getD []

/-- The tokens after the closing bracket. -/
def afterCloser (kind : Bracket) (ts : List Token) : List Token := (fromCloser kind ts).drop 1

theorem fromCloser_length_le (kind : Bracket) (ts : List Token) :
    (fromCloser kind ts).length ≤ ts.length := by
  unfold fromCloser
  cases h : closerFrom kind 0 ts with
  | none => simp
  | some found => exact closerFrom_length_le h

theorem afterCloser_length_le (kind : Bracket) (ts : List Token) :
    (afterCloser kind ts).length ≤ ts.length := by
  have := fromCloser_length_le kind ts
  simp only [afterCloser, List.length_drop]; omega

/-- The tokens between the brackets. -/
def insideGroup (kind : Bracket) (ts : List Token) : List Token :=
  ts.take (ts.length - (fromCloser kind ts).length)

/-- A stretch of text that is being scanned: the whole text and the offset where the scan ends. -/
structure Scan where
  text : List Char
  stop : Nat

/-- Offset of the next token, or the end of the scan. -/
def Scan.offsetOf (scan : Scan) (ts : List Token) : Nat :=
  match ts with
  | [] => scan.stop
  | t :: _ => t.start

/-- Offset of the bracket that closes the group whose opening one has been read, or the end of the scan. -/
def Scan.closeOffset (scan : Scan) (kind : Bracket) (ts : List Token) : Nat :=
  scan.offsetOf (fromCloser kind ts)

/-- The trimmed text from the first token of one list to the first token of the other. -/
def Scan.textBetween (scan : Scan) (first last : List Token) : String :=
  String.ofList (trim (between (scan.offsetOf first) (scan.offsetOf last) scan.text))

end Typeahead.Source
