import Typeahead.Proofs.Source.Nested

namespace Typeahead.Source

/-- A word that can name a type, a member or a variable. -/
structure Name where
  text : String
  free : text ∉ reservedWords := by decide +kernel

/-- `Head.Path<Arguments>?[,]`: a dotted name, its type arguments, a nullable marker and array ranks, each
given by its number of commas. -/
inductive TypeExpr where
  | mk (head : Name) (path : List String) (arguments : List TypeExpr) (isNullable : Bool) (commas : List Nat)

namespace TypeExpr

def head : TypeExpr → Name
  | mk head _ _ _ _ => head

/-- A name alone. -/
def named (head : Name) : TypeExpr := mk head [] [] false []

def pathLexemes (path : List String) : List Lexeme := path.flatMap fun part => [.mark '.', .word part]

def pathText (path : List String) : String := String.join (path.map ("." ++ ·))

def rankLexemes (commas : Nat) : List Lexeme := List.replicate commas (.mark ',') ++ [.mark ']']

def rankText (commas : Nat) : String := String.join (List.replicate commas ",") ++ "]"

def ranksLexemes (commas : List Nat) : List Lexeme := commas.flatMap fun n => .mark '[' :: rankLexemes n

def ranksText (commas : List Nat) : String := String.join (commas.map fun n => "[" ++ rankText n)

/-- The nullable marker and the ranks. -/
def marksLexemes (isNullable : Bool) (commas : List Nat) : List Lexeme :=
  (if isNullable then [.mark '?'] else []) ++ ranksLexemes commas

def marksText (isNullable : Bool) (commas : List Nat) : String :=
  (if isNullable then "?" else "") ++ ranksText commas

mutual

def lexemes : TypeExpr → List Lexeme
  | mk head path arguments isNullable commas =>
    .word head.text :: (pathLexemes path ++ argumentsLexemes arguments ++ marksLexemes isNullable commas)

/-- An argument list with its angle brackets; nothing for no arguments. -/
def argumentsLexemes : List TypeExpr → List Lexeme
  | [] => []
  | first :: others => .mark '<' :: (first.lexemes ++ moreLexemes others)

/-- The arguments after the first one, with the bracket that ends the list. -/
def moreLexemes : List TypeExpr → List Lexeme
  | [] => [.mark '>']
  | next :: others => .mark ',' :: (next.lexemes ++ moreLexemes others)

end

mutual

/-- The normal spelling: no blanks but one after each comma between arguments. -/
def text : TypeExpr → String
  | mk head path arguments isNullable commas =>
    head.text ++ pathText path ++ argumentsText arguments ++ marksText isNullable commas

def argumentsText : List TypeExpr → String
  | [] => ""
  | first :: others => "<" ++ first.text ++ moreText others

def moreText : List TypeExpr → String
  | [] => ">"
  | next :: others => ", " ++ next.text ++ moreText others

end

theorem lexemes_named (head : Name) : (named head).lexemes = [.word head.text] := rfl

theorem text_named (head : Name) : (named head).text = head.text := by
  simp [named, text, pathText, argumentsText, marksText, ranksText, String.join]

theorem nested_pathLexemes (path : List String) : Nested (pathLexemes path) := by
  induction path with
  | nil => exact .nil
  | cons part path ih => exact .plain (isPlain_mark (by decide)) (.plain (isPlain_word part) ih)

theorem nested_ranksLexemes (commas : List Nat) : Nested (ranksLexemes commas) := by
  have separators (n : Nat) : Nested (List.replicate n (.mark ',')) := by
    induction n with
    | zero => exact .nil
    | succ n ih => exact .plain (isPlain_mark (by decide)) ih
  induction commas with
  | nil => exact .nil
  | cons n commas ih =>
    show Nested (.mark '[' :: rankLexemes n ++ ranksLexemes commas)
    rw [List.cons_append, rankLexemes, List.append_assoc]
    exact .group .square (separators n) ih

theorem nested_marksLexemes (isNullable : Bool) (commas : List Nat) : Nested (marksLexemes isNullable commas) := by
  cases isNullable with
  | true => exact .plain (isPlain_mark (by decide)) (nested_ranksLexemes commas)
  | false => exact nested_ranksLexemes commas

mutual

theorem nested_lexemes : ∀ e : TypeExpr, Nested e.lexemes
  | mk _ path arguments isNullable commas =>
    .plain (isPlain_word _)
      (((nested_pathLexemes path).append (nested_argumentsLexemes arguments)).append
        (nested_marksLexemes isNullable commas))

theorem nested_argumentsLexemes : ∀ arguments : List TypeExpr, Nested (argumentsLexemes arguments)
  | [] => .nil
  | first :: others =>
    .plain (isPlain_mark (by decide)) ((nested_lexemes first).append (nested_moreLexemes others))

theorem nested_moreLexemes : ∀ others : List TypeExpr, Nested (moreLexemes others)
  | [] => .plain (isPlain_mark (by decide)) .nil
  | next :: others =>
    .plain (isPlain_mark (by decide)) ((nested_lexemes next).append (nested_moreLexemes others))

end

end TypeExpr

variable {t : Token} {ts rest : List Token} {depth : Nat}

/-- Nothing at the start of the list goes on with a type expression. -/
def EndsType (rest : List Token) : Prop := ∀ c ∈ ['.', '<', '?', '[', ':'], nextIs c rest = false

theorem nextIs_mark {c d : Char} (spelled : t.lexeme = .mark d) : nextIs c (t :: rest) = (d == c) := by
  rw [Bool.eq_iff_iff]
  simp [nextIs, Token.isMark, spelled]

theorem nextIs_word {c : Char} {text : String} (spelled : t.lexeme = .word text) : nextIs c (t :: rest) = false := by
  simp [nextIs, Token.isMark, spelled]

theorem nextWord?_word {text : String} (spelled : t.lexeme = .word text) : nextWord? (t :: rest) = some text := by
  simp [nextWord?, Token.word?, spelled]

theorem nextWord?_mark {c : Char} (spelled : t.lexeme = .mark c) : nextWord? (t :: rest) = none := by
  simp [nextWord?, Token.word?, spelled]

theorem nextName?_name {name : Name} (spelled : t.lexeme = .word name.text) :
    nextName? (t :: rest) = some name.text := by
  simp [nextName?, nextWord?_word spelled, name.free]

theorem nextName?_mark {c : Char} (spelled : t.lexeme = .mark c) : nextName? (t :: rest) = none := by
  simp [nextName?, nextWord?_mark spelled]

theorem endsType_word {text : String} (spelled : t.lexeme = .word text) : EndsType (t :: rest) :=
  fun _ _ => nextIs_word spelled

theorem endsType_mark {c : Char} (spelled : t.lexeme = .mark c) (other : c ∉ ['.', '<', '?', '[', ':']) :
    EndsType (t :: rest) := by
  intro d goesOn
  rw [nextIs_mark spelled]
  exact beq_false_of_ne fun same => other (same ▸ goesOn)

theorem dropGlobal_cons (unqualified : nextIs ':' rest = false) :
    dropGlobal (t :: rest) = t :: rest := by
  match rest with
  | [] | [_] => rfl
  | b :: c :: more =>
    have notColon : b.isMark ':' = false := unqualified
    simp [dropGlobal, notColon]

theorem dottedTail_of_not_dot (ends : nextIs '.' rest = false) : dottedTail rest = ("", rest) := by
  match rest with
  | [] | [_] => rfl
  | dot :: part :: more =>
    have notDot : dot.isMark '.' = false := ends
    simp [dottedTail, notDot]

theorem dottedTail_path {path : List String} (spelled : ts.map (·.lexeme) = TypeExpr.pathLexemes path)
    (ends : nextIs '.' rest = false) : dottedTail (ts ++ rest) = (TypeExpr.pathText path, rest) := by
  induction path generalizing ts with
  | nil =>
    obtain rfl := List.map_eq_nil_iff.mp spelled
    exact dottedTail_of_not_dot ends
  | cons part path ih =>
    obtain ⟨dot, more, rfl, isDot, tail⟩ := List.map_eq_cons_iff.mp spelled
    obtain ⟨word, more, rfl, isWord, after⟩ := List.map_eq_cons_iff.mp tail
    have dotted : dot.isMark '.' = true := by simp [Token.isMark, isDot]
    have worded : word.word? = some part := by simp [Token.word?, isWord]
    simp only [List.cons_append, dottedTail, dotted, worded, ih after, if_true]
    simp [TypeExpr.pathText, String.join_cons]

theorem rankTail?_rank {commas : Nat} (spelled : ts.map (·.lexeme) = TypeExpr.rankLexemes commas) :
    rankTail? (ts ++ rest) = some (TypeExpr.rankText commas, rest) := by
  induction commas generalizing ts with
  | zero =>
    obtain ⟨close, more, rfl, isClose, after⟩ := List.map_eq_cons_iff.mp spelled
    obtain rfl := List.map_eq_nil_iff.mp after
    simp [rankTail?, Token.isMark, isClose, TypeExpr.rankText]
  | succ commas ih =>
    obtain ⟨comma, more, rfl, isComma, after⟩ := List.map_eq_cons_iff.mp spelled
    have separated : comma.isMark ',' = true := by simp [Token.isMark, isComma]
    rw [List.cons_append, rankTail?, if_pos separated, ih after]
    simp [TypeExpr.rankText, List.replicate_succ, String.join_cons, String.append_assoc]

theorem ranks_of_not_square (ends : nextIs '[' rest = false) : ranks rest = ("", rest) := by
  cases rest with
  | nil => rw [ranks]
  | cons t more =>
    have notSquare : t.isMark '[' = false := ends
    rw [ranks, notSquare]
    rfl

theorem ranks_of_rank {rank : String} {later : List Token} (opened : t.isMark '[' = true)
    (read : rankTail? rest = some (rank, later)) :
    ranks (t :: rest) = ("[" ++ rank ++ (ranks later).1, (ranks later).2) := by
  rw [ranks, if_pos opened]
  split
  · next found =>
    obtain ⟨rfl, rfl⟩ := Prod.mk.inj (Option.some.inj (found.symm.trans read))
    rfl
  · next missing => exact absurd (read.symm.trans missing) (Option.some_ne_none _)

theorem ranks_of_not_rank (opened : t.isMark '[' = true) (missing : rankTail? rest = none) :
    ranks (t :: rest) = ("", t :: rest) := by
  rw [ranks, if_pos opened]
  split
  · next found => exact absurd (found.symm.trans missing) (Option.some_ne_none _)
  · rfl

theorem ranks_ranks {commas : List Nat} (spelled : ts.map (·.lexeme) = TypeExpr.ranksLexemes commas)
    (ends : nextIs '[' rest = false) : ranks (ts ++ rest) = (TypeExpr.ranksText commas, rest) := by
  induction commas generalizing ts with
  | nil =>
    obtain rfl := List.map_eq_nil_iff.mp spelled
    exact ranks_of_not_square ends
  | cons n commas ih =>
    obtain ⟨square, more, rfl, isSquare, tail⟩ := List.map_eq_cons_iff.mp spelled
    obtain ⟨rank, more, rfl, spelledRank, after⟩ := List.map_eq_append_iff.mp tail
    have opened : square.isMark '[' = true := by simp [Token.isMark, isSquare]
    have read : rankTail? (rank ++ (more ++ rest)) = some (TypeExpr.rankText n, more ++ rest) :=
      rankTail?_rank spelledRank
    rw [List.cons_append, List.append_assoc, ranks_of_rank opened read, ih after]
    simp [TypeExpr.ranksText, String.join_cons]

theorem typeMarks_of_endsType (ends : EndsType rest) : typeMarks rest = ("", rest) := by
  rw [typeMarks, ends '?' (by decide)]
  exact ranks_of_not_square (ends '[' (by decide))

theorem nextIs_ranks {c : Char} {commas : List Nat} (spelled : ts.map (·.lexeme) = TypeExpr.ranksLexemes commas)
    (other : c ≠ '[') (ends : nextIs c rest = false) : nextIs c (ts ++ rest) = false := by
  cases commas with
  | nil =>
    obtain rfl := List.map_eq_nil_iff.mp spelled
    exact ends
  | cons n commas =>
    obtain ⟨square, more, rfl, isSquare, _⟩ := List.map_eq_cons_iff.mp spelled
    rw [List.cons_append, nextIs_mark isSquare]
    exact beq_false_of_ne other.symm

theorem typeMarks_marks {isNullable : Bool} {commas : List Nat}
    (spelled : ts.map (·.lexeme) = TypeExpr.marksLexemes isNullable commas) (ends : EndsType rest) :
    typeMarks (ts ++ rest) = (TypeExpr.marksText isNullable commas, rest) := by
  have square := ends '[' (by decide)
  cases isNullable with
  | true =>
    obtain ⟨mark, more, rfl, isMark, after⟩ := List.map_eq_cons_iff.mp spelled
    rw [List.cons_append, typeMarks, nextIs_mark isMark]
    simp [ranks_ranks after square, TypeExpr.marksText]
  | false =>
    rw [typeMarks, nextIs_ranks spelled (by decide) (ends '?' (by decide))]
    simp [ranks_ranks spelled square, TypeExpr.marksText]

theorem nextIs_marks {c : Char} {isNullable : Bool} {commas : List Nat}
    (spelled : ts.map (·.lexeme) = TypeExpr.marksLexemes isNullable commas) (other : c ∉ ['?', '['])
    (ends : nextIs c rest = false) : nextIs c (ts ++ rest) = false := by
  simp only [List.mem_cons, List.not_mem_nil, or_false, not_or] at other
  cases isNullable with
  | true =>
    obtain ⟨mark, more, rfl, isMark, _⟩ := List.map_eq_cons_iff.mp spelled
    rw [List.cons_append, nextIs_mark isMark]
    exact beq_false_of_ne (Ne.symm other.1)
  | false => exact nextIs_ranks spelled other.2 ends

theorem typeTail_zero (ts : List Token) : typeTail 0 ts = some (typeMarks ts) := by
  rw [typeTail]

theorem typeTail_succ (depth : Nat) (ts : List Token) :
    typeTail (depth + 1) ts =
      match (typeMarks ts).2 with
      | [] => none
      | t :: rest =>
        if t.isMark ',' then
          (typeFrom (depth + 1) rest).map fun (text, last) => ((typeMarks ts).1 ++ ", " ++ text, last)
        else if t.isMark '>' then
          (typeTail depth rest).map fun (text, last) => ((typeMarks ts).1 ++ ">" ++ text, last)
        else none := by
  rw [typeTail]
  simp only
  generalize (typeMarks ts).2 = later
  cases later <;> rfl

theorem typeFrom_of_dottedName {name : String} {later : List Token} (read : dottedName? ts = some (name, later)) :
    typeFrom depth ts =
      if nextIs '<' later then
        (typeFrom (depth + 1) (later.drop 1)).map fun (text, last) => (name ++ "<" ++ text, last)
      else (typeTail depth later).map fun (text, last) => (name ++ text, last) := by
  rw [typeFrom]
  split
  · next missing => exact absurd (read.symm.trans missing) (Option.some_ne_none _)
  · next found =>
    obtain ⟨rfl, rfl⟩ := Prod.mk.inj (Option.some.inj (found.symm.trans read))
    rfl

theorem typeFrom_of_not_dottedName (missing : dottedName? ts = none) : typeFrom depth ts = none := by
  rw [typeFrom]
  split
  · rfl
  · next found => exact absurd (found.symm.trans missing) (Option.some_ne_none _)

/-- The marks of a type are read before what follows them. -/
theorem typeTail_marks {isNullable : Bool} {commas : List Nat}
    (spelled : ts.map (·.lexeme) = TypeExpr.marksLexemes isNullable commas) (ends : EndsType rest) :
    typeTail depth (ts ++ rest) =
      (typeTail depth rest).map fun (text, last) => (TypeExpr.marksText isNullable commas ++ text, last) := by
  have marks := typeMarks_marks spelled ends
  have none := typeMarks_of_endsType ends
  cases depth with
  | zero => simp [typeTail_zero, marks, none]
  | succ depth =>
    rw [typeTail_succ, typeTail_succ, marks, none]
    cases rest with
    | nil => rfl
    | cons t rest =>
      simp only
      split
      · simp [Function.comp_def, String.append_assoc]
      · split
        · simp [Function.comp_def, String.append_assoc]
        · rfl

theorem dottedName?_path {head : Name} {path : List String} {word : Token} (isWord : word.lexeme = .word head.text)
    (spelled : ts.map (·.lexeme) = TypeExpr.pathLexemes path) (undotted : nextIs '.' rest = false)
    (unqualified : nextIs ':' rest = false) :
    dottedName? (word :: (ts ++ rest)) = some (head.text ++ TypeExpr.pathText path, rest) := by
  have noColon : nextIs ':' (ts ++ rest) = false := by
    cases path with
    | nil =>
      obtain rfl := List.map_eq_nil_iff.mp spelled
      exact unqualified
    | cons part path =>
      obtain ⟨dot, more, rfl, isDot, _⟩ := List.map_eq_cons_iff.mp spelled
      rw [List.cons_append, nextIs_mark isDot]
      rfl
  rw [dottedName?, dropGlobal_cons noColon]
  simp [nextName?_name isWord, dottedTail_path spelled undotted]

theorem endsType_moreLexemes {others : List TypeExpr} (spelled : ts.map (·.lexeme) = TypeExpr.moreLexemes others) :
    EndsType (ts ++ rest) := by
  cases others with
  | nil =>
    obtain ⟨close, more, rfl, isClose, _⟩ := List.map_eq_cons_iff.mp spelled
    exact endsType_mark isClose (by decide)
  | cons next others =>
    obtain ⟨comma, more, rfl, isComma, _⟩ := List.map_eq_cons_iff.mp spelled
    exact endsType_mark isComma (by decide)

mutual

/-- A name with its type arguments is read in front of anything that goes on with neither. -/
theorem typeFrom_arguments (arguments : List TypeExpr) (head : Name) (path : List String) (depth : Nat)
    (word : Token) (ts rest : List Token) (isWord : word.lexeme = .word head.text)
    (spelled : ts.map (·.lexeme) = TypeExpr.pathLexemes path ++ TypeExpr.argumentsLexemes arguments)
    (undotted : nextIs '.' rest = false) (unqualified : nextIs ':' rest = false) (plain : nextIs '<' rest = false) :
    typeFrom depth (word :: (ts ++ rest)) = (typeTail depth rest).map fun (text, last) =>
      (head.text ++ TypeExpr.pathText path ++ TypeExpr.argumentsText arguments ++ text, last) := by
  obtain ⟨dotted, list, rfl, spelledPath, spelledList⟩ := List.map_eq_append_iff.mp spelled
  rw [List.append_assoc]
  cases arguments with
  | nil =>
    obtain rfl := List.map_eq_nil_iff.mp spelledList
    rw [List.nil_append, typeFrom_of_dottedName (dottedName?_path isWord spelledPath undotted unqualified), plain]
    simp [TypeExpr.argumentsText]
  | cons first others =>
    obtain ⟨angle, inner, rfl, isAngle, spelledInner⟩ := List.map_eq_cons_iff.mp spelledList
    obtain ⟨argument, others', rfl, spelledFirst, spelledOthers⟩ := List.map_eq_append_iff.mp spelledInner
    have angleNext {c : Char} (other : '<' ≠ c) (rest : List Token) : nextIs c (angle :: rest) = false := by
      rw [nextIs_mark isAngle]
      exact beq_false_of_ne other
    rw [List.cons_append, List.append_assoc, typeFrom_of_dottedName (dottedName?_path isWord spelledPath
      (angleNext (by decide) _) (angleNext (by decide) _)), nextIs_mark isAngle]
    simp only [beq_self_eq_true, if_true, List.drop_succ_cons, List.drop_zero]
    rw [typeFrom_expr first (depth + 1) argument _ spelledFirst (endsType_moreLexemes spelledOthers),
      typeTail_more others depth others' _ spelledOthers]
    simp [Function.comp_def, TypeExpr.argumentsText, String.append_assoc]

/-- A type expression is read in front of anything that does not go on with it. -/
theorem typeFrom_expr (e : TypeExpr) (depth : Nat) (ts rest : List Token)
    (spelled : ts.map (·.lexeme) = e.lexemes) (ends : EndsType rest) :
    typeFrom depth (ts ++ rest) = (typeTail depth rest).map fun (text, last) => (e.text ++ text, last) := by
  obtain ⟨head, path, arguments, isNullable, commas⟩ := e
  obtain ⟨word, more, rfl, isWord, tail⟩ := List.map_eq_cons_iff.mp spelled
  obtain ⟨front, marks, rfl, spelledFront, spelledMarks⟩ := List.map_eq_append_iff.mp tail
  have noDot := nextIs_marks spelledMarks (by decide) (ends '.' (by decide))
  have noColon := nextIs_marks spelledMarks (by decide) (ends ':' (by decide))
  have noAngle := nextIs_marks spelledMarks (by decide) (ends '<' (by decide))
  rw [List.cons_append, List.append_assoc, typeFrom_arguments arguments head path depth word front _ isWord spelledFront
    noDot noColon noAngle, typeTail_marks spelledMarks ends]
  simp [Function.comp_def, TypeExpr.text, String.append_assoc]

/-- After an argument the other arguments are read, to the end of the list. -/
theorem typeTail_more (others : List TypeExpr) (depth : Nat) (ts rest : List Token)
    (spelled : ts.map (·.lexeme) = TypeExpr.moreLexemes others) :
    typeTail (depth + 1) (ts ++ rest) =
      (typeTail depth rest).map fun (text, last) => (TypeExpr.moreText others ++ text, last) := by
  have ends : EndsType (ts ++ rest) := endsType_moreLexemes spelled
  rw [typeTail_succ, typeMarks_of_endsType ends]
  match others with
  | [] =>
    obtain ⟨close, more, rfl, isClose, after⟩ := List.map_eq_cons_iff.mp spelled
    obtain rfl := List.map_eq_nil_iff.mp after
    simp [Token.isMark, isClose, TypeExpr.moreText]
  | next :: others =>
    obtain ⟨comma, more, rfl, isComma, tail⟩ := List.map_eq_cons_iff.mp spelled
    obtain ⟨argument, more, rfl, spelledNext, spelledOthers⟩ := List.map_eq_append_iff.mp tail
    have separated : comma.isMark ',' = true := by simp [Token.isMark, isComma]
    simp only [List.cons_append, List.append_assoc, separated, if_true]
    rw [typeFrom_expr next (depth + 1) argument _ spelledNext (endsType_moreLexemes spelledOthers),
      typeTail_more others depth more rest spelledOthers]
    simp [Function.comp_def, TypeExpr.moreText, String.append_assoc]

end

/-- A type expression is read from the tokens that spell it, in its normal spelling. -/
theorem readType?_expr {e : TypeExpr} (spelled : ts.map (·.lexeme) = e.lexemes) (ends : EndsType rest) :
    readType? (ts ++ rest) = some (e.text, rest) := by
  rw [readType?, typeFrom_expr e 0 ts rest spelled ends, typeTail_zero, typeMarks_of_endsType ends]
  simp

end Typeahead.Source
