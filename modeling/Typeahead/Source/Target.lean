import Typeahead.Text.Place

namespace Typeahead.Source

open Text

/-- The access expression that ends at the caret, split at its last dot outside every group. -/
structure Target where
  /-- The whole access expression. -/
  entity : String
  /-- What stands before the last dot. -/
  chain : String
  /-- What stands after it. -/
  lookAhead : String
  deriving DecidableEq, Repr

/-- The expression has a dot outside its groups, or would be as long as its last part. -/
def Target.hasDot (t : Target) : Bool := t.entity.utf8ByteSize != t.lookAhead.utf8ByteSize

def Target.isBlank (t : Target) : Bool := !t.hasDot

/-- Reads a text backwards, `taken` being what was read already, through the opening bracket that
matches the first closing one. A semicolon or a brace inside ends the search. -/
def groupBack (opening closing : Char) (depth : Nat) (taken : List Char) :
    List Char → Option (List Char × List Char)
  | [] => none
  | c :: cs =>
    if c = closing then groupBack opening closing (depth + 1) (c :: taken) cs
    else if c = opening then
      if depth ≤ 1 then some (c :: taken, cs) else groupBack opening closing (depth - 1) (c :: taken) cs
    else if c = ';' ∨ c = '{' ∨ c = '}' then none
    else groupBack opening closing depth (c :: taken) cs

/-- Characters that may stand in a list of type arguments. -/
def isTypeArgumentChar (c : Char) : Bool :=
  isIdentifierChar c || c == '.' || c == ',' || c == ' ' || c == '[' || c == ']' || c == '?'

/-- Reads a list of type arguments backwards; a name has to stand in front of it. -/
def typeArgumentsBack (depth : Nat) (taken : List Char) : List Char → Option (List Char × List Char)
  | [] => none
  | c :: cs =>
    if c = '>' then typeArgumentsBack (depth + 1) (c :: taken) cs
    else if c = '<' then
      if depth ≤ 1 then
        if cs.head?.any isIdentifierChar then some (c :: taken, cs) else none
      else typeArgumentsBack (depth - 1) (c :: taken) cs
    else if isTypeArgumentChar c then typeArgumentsBack depth (c :: taken) cs
    else none

theorem groupBack_length_lt {opening closing : Char} {depth : Nat} {taken cs taken' rest : List Char}
    (h : groupBack opening closing depth taken cs = some (taken', rest)) : rest.length < cs.length := by
  induction cs generalizing depth taken with
  | nil => simp [groupBack] at h
  | cons c cs ih =>
    simp only [groupBack] at h
    simp only [List.length_cons]
    split at h
    · have := ih h; omega
    · split at h
      · split at h
        · simp only [Option.some.injEq, Prod.mk.injEq] at h; rw [← h.2]; omega
        · have := ih h; omega
      · split at h
        · simp at h
        · have := ih h; omega

theorem typeArgumentsBack_length_lt {depth : Nat} {taken cs taken' rest : List Char}
    (h : typeArgumentsBack depth taken cs = some (taken', rest)) : rest.length < cs.length := by
  induction cs generalizing depth taken with
  | nil => simp [typeArgumentsBack] at h
  | cons c cs ih =>
    simp only [typeArgumentsBack] at h
    simp only [List.length_cons]
    split at h
    · have := ih h; omega
    · split at h
      · split at h
        · split at h
          · simp only [Option.some.injEq, Prod.mk.injEq] at h; rw [← h.2]; omega
          · simp at h
        · have := ih h; omega
      · split at h
        · have := ih h; omega
        · simp at h

/-- One step backwards over a group: parentheses, an indexer, or type arguments in front of an opening
parenthesis. -/
def stepBack (taken : List Char) : List Char → Option (List Char × List Char)
  | [] => none
  | c :: cs =>
    if isIdentifierChar c || c == '.' then some (c :: taken, cs)
    else if c = ')' then groupBack '(' ')' 0 taken (c :: cs)
    else if c = ']' then groupBack '[' ']' 0 taken (c :: cs)
    else if c = '>' ∧ taken.head? = some '(' then typeArgumentsBack 0 taken (c :: cs)
    else none

theorem stepBack_length_lt {taken cs taken' rest : List Char}
    (h : stepBack taken cs = some (taken', rest)) : rest.length < cs.length := by
  unfold stepBack at h
  split at h
  · simp at h
  · split at h
    · simp only [Option.some.injEq, Prod.mk.injEq] at h; simp [← h.2]
    · split at h
      · exact groupBack_length_lt h
      · split at h
        · exact groupBack_length_lt h
        · split at h
          · exact typeArgumentsBack_length_lt h
          · simp at h

/-- The access expression that ends where a reversed text starts. -/
def entityBack (taken cs : List Char) : List Char :=
  match _h : stepBack taken cs with
  | none => taken
  | some (taken, rest) => entityBack taken rest
termination_by cs.length
decreasing_by exact stepBack_length_lt (by assumption)

/-- The parts around the last dot outside brackets of every kind, angle brackets among them. -/
def splitLastDot (depth : Int) : List Char → Option (List Char × List Char)
  | [] => none
  | c :: cs =>
    let deeper :=
      if c = '(' ∨ c = '[' ∨ c = '<' then depth + 1
      else if c = ')' ∨ c = ']' ∨ c = '>' then depth - 1
      else depth
    match splitLastDot deeper cs with
    | some (earlier, later) => some (c :: earlier, later)
    | none => if c = '.' ∧ depth = 0 then some ([], cs) else none

/-- The target at the end of a text. -/
def Target.of (text : List Char) : Target :=
  let entity := entityBack [] text.reverse
  match splitLastDot 0 entity with
  | some (chain, lookAhead) => ⟨String.ofList entity, String.ofList chain, String.ofList lookAhead⟩
  | none => ⟨String.ofList entity, "", String.ofList entity⟩

end Typeahead.Source
