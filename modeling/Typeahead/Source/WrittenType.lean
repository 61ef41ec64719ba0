import Typeahead.Source.Token

namespace Typeahead.Source

/-- Words that are never taken for the name of a type, a member or a variable. -/
def reservedWords : List String := [
  "return", "new", "throw", "if", "else", "while", "do", "for", "foreach", "switch", "case",
  "default", "break", "continue", "goto", "try", "catch", "finally", "lock", "using", "yield",
  "await", "this", "base", "null", "true", "false", "typeof", "sizeof", "nameof", "is", "as",
  "in", "out", "ref", "params", "checked", "unchecked", "get", "set", "init", "add", "remove",
  "where", "operator", "implicit", "explicit", "static", "const", "public", "private",
  "protected", "internal", "readonly", "namespace", "class", "struct", "interface", "enum",
  "delegate", "event", "when", "select", "from", "let", "stackalloc"]

/-- The next token, when it is a word that can be a name. -/
def nextName? (ts : List Token) : Option String :=
  (nextWord? ts).filter fun word => !reservedWords.contains word

/-- The list without a leading `global::`. -/
def dropGlobal : List Token → List Token
  | a :: b :: c :: rest =>
    if a.word? == some "global" && b.isMark ':' && c.isMark ':' then rest else a :: b :: c :: rest
  | ts => ts

/-- The rest of a dotted name, after its first part. -/
def dottedTail : List Token → String × List Token
  | dot :: part :: rest =>
    if dot.isMark '.' then
      match part.word? with
      | some word =>
        let (text, later) := dottedTail rest
        ("." ++ word ++ text, later)
      | none => ("", dot :: part :: rest)
    else ("", dot :: part :: rest)
  | ts => ("", ts)

theorem dropGlobal_length_le (ts : List Token) : (dropGlobal ts).length ≤ ts.length := by
  unfold dropGlobal; split
  · split <;> simp only [List.length_cons]; omega; exact Nat.le_refl _
  · exact Nat.le_refl _

theorem dottedTail_length_le (ts : List Token) : (dottedTail ts).2.length ≤ ts.length := by
  fun_induction dottedTail ts with
  | case1 dot part rest _ word _ text later eq ih =>
    simp only [eq] at ih; simp only [List.length_cons]; omega
  | case2 | case3 | case4 => exact Nat.le_refl _

/-- A dotted name, with an optional `global::` in front that is dropped. -/
def dottedName? (ts : List Token) : Option (String × List Token) :=
  let ts := dropGlobal ts
  match nextName? ts with
  | none => none
  | some first =>
    let (text, later) := dottedTail (ts.drop 1)
    some (first ++ text, later)

theorem dottedName?_length_lt {ts later : List Token} {name : String}
    (h : dottedName? ts = some (name, later)) : later.length < ts.length := by
  have shorter := dropGlobal_length_le ts
  unfold dottedName? at h
  simp only at h
  split at h
  · simp at h
  · next first found =>
    simp only [Option.some.injEq, Prod.mk.injEq] at h
    have tail := dottedTail_length_le ((dropGlobal ts).drop 1)
    rw [h.2] at tail
    cases eq : dropGlobal ts with
    | nil => simp [eq, nextName?, nextWord?] at found
    | cons t rest => simp only [eq, List.drop_one, List.tail_cons, List.length_cons] at tail shorter; omega

/-- The commas and the closing bracket of one array rank, after its opening bracket. -/
def rankTail? : List Token → Option (String × List Token)
  | [] => none
  | t :: rest =>
    if t.isMark ',' then (rankTail? rest).map fun (text, later) => ("," ++ text, later)
    else if t.isMark ']' then some ("]", rest)
    else none

theorem rankTail?_length_lt {ts later : List Token} {text : String}
    (h : rankTail? ts = some (text, later)) : later.length < ts.length := by
  induction ts generalizing text later with
  | nil => simp [rankTail?] at h
  | cons t rest ih =>
    simp only [rankTail?] at h
    split at h
    · obtain ⟨⟨inner, found⟩, eq, same⟩ := Option.map_eq_some_iff.mp h
      simp only [Prod.mk.injEq] at same
      have := ih eq
      simp only [← same.2, List.length_cons]; omega
    · split at h
      · simp only [Option.some.injEq, Prod.mk.injEq] at h; simp [← h.2]
      · simp at h

/-- Array ranks, as many as there are. -/
def ranks : List Token → String × List Token
  | [] => ("", [])
  | t :: rest =>
    if t.isMark '[' then
      match _h : rankTail? rest with
      | some (rank, later) =>
        let (text, last) := ranks later
        ("[" ++ rank ++ text, last)
      | none => ("", t :: rest)
    else ("", t :: rest)
termination_by ts => ts.length
decreasing_by
  have := rankTail?_length_lt (by assumption); simp only [List.length_cons]; omega

theorem ranks_length_le (ts : List Token) : (ranks ts).2.length ≤ ts.length := by
  fun_induction ranks ts with
  | case1 => exact Nat.le_refl _
  | case2 t rest _ rank later h text last eq ih =>
    have := rankTail?_length_lt h
    simp only [eq] at ih; simp only [List.length_cons]; omega
  | case3 | case4 => exact Nat.le_refl _

/-- A nullable marker and array ranks. -/
def typeMarks (ts : List Token) : String × List Token :=
  if nextIs '?' ts then
    let (text, later) := ranks (ts.drop 1)
    ("?" ++ text, later)
  else ranks ts

theorem typeMarks_length_le (ts : List Token) : (typeMarks ts).2.length ≤ ts.length := by
  unfold typeMarks; split
  · have := ranks_length_le (ts.drop 1); simp only [List.length_drop] at this; simp only; omega
  · exact ranks_length_le ts

mutual

/-- A type expression inside `depth` open argument lists, with all that closes them. -/
def typeFrom (depth : Nat) (ts : List Token) : Option (String × List Token) :=
  match h : dottedName? ts with
  | none => none
  | some (name, later) =>
    if nextIs '<' later then
      (typeFrom (depth + 1) (later.drop 1)).map fun (text, last) => (name ++ "<" ++ text, last)
    else (typeTail depth later).map fun (text, last) => (name ++ text, last)
termination_by ts.length
decreasing_by
  · have := dottedName?_length_lt h; simp only [List.length_drop]; omega
  · exact dottedName?_length_lt h

/-- What follows a name or an argument list inside `depth` open argument lists. -/
def typeTail (depth : Nat) (ts : List Token) : Option (String × List Token) :=
  let marks := (typeMarks ts).1
  match depth with
  | 0 => some (marks, (typeMarks ts).2)
  | depth + 1 =>
    match h : (typeMarks ts).2 with
    | [] => none
    | t :: rest =>
      if t.isMark ',' then
        (typeFrom (depth + 1) rest).map fun (text, last) => (marks ++ ", " ++ text, last)
      else if t.isMark '>' then
        (typeTail depth rest).map fun (text, last) => (marks ++ ">" ++ text, last)
      else none
termination_by ts.length
decreasing_by
  all_goals
    have := typeMarks_length_le ts
    rw [h] at this; simp only [List.length_cons] at this; omega

end

/-- The type expression that starts a token list, and what follows it. -/
def readType? (ts : List Token) : Option (String × List Token) := typeFrom 0 ts

/-- Reading a type leaves a shorter list, and reading the rest of one a list that is not longer. -/
theorem typeFrom_typeTail_length (bound : Nat) : ∀ ts : List Token, ts.length < bound →
    (∀ depth text later, typeFrom depth ts = some (text, later) → later.length < ts.length) ∧
    (∀ depth text later, typeTail depth ts = some (text, later) → later.length ≤ ts.length) := by
  induction bound with
  | zero => intro ts small; omega
  | succ bound ih =>
    intro ts small
    refine ⟨fun depth text later h => ?_, fun depth text later h => ?_⟩
    · unfold typeFrom at h
      split at h
      · simp at h
      · next name mid found =>
        have shorter := dottedName?_length_lt found
        split at h
        · obtain ⟨⟨inner, last⟩, eq, same⟩ := Option.map_eq_some_iff.mp h
          simp only [Prod.mk.injEq] at same
          have step := (ih (mid.drop 1) (by simp only [List.length_drop]; omega)).1 _ _ _ eq
          simp only [List.length_drop] at step
          rw [← same.2]; omega
        · obtain ⟨⟨inner, last⟩, eq, same⟩ := Option.map_eq_some_iff.mp h
          simp only [Prod.mk.injEq] at same
          have step := (ih mid (by omega)).2 _ _ _ eq
          rw [← same.2]; omega
    · have marks := typeMarks_length_le ts
      unfold typeTail at h
      split at h
      · simp only [Option.some.injEq, Prod.mk.injEq] at h; rw [← h.2]; exact marks
      · split at h
        · simp at h
        · next t rest eq =>
          rw [eq, List.length_cons] at marks
          split at h
          · obtain ⟨⟨inner, last⟩, found, same⟩ := Option.map_eq_some_iff.mp h
            simp only [Prod.mk.injEq] at same
            have step := (ih rest (by omega)).1 _ _ _ found
            rw [← same.2]; omega
          · split at h
            · obtain ⟨⟨inner, last⟩, found, same⟩ := Option.map_eq_some_iff.mp h
              simp only [Prod.mk.injEq] at same
              have step := (ih rest (by omega)).2 _ _ _ found
              rw [← same.2]; omega
            · simp at h

theorem readType?_length_lt {ts later : List Token} {text : String}
    (h : readType? ts = some (text, later)) : later.length < ts.length :=
  (typeFrom_typeTail_length (ts.length + 1) ts (Nat.lt_succ_self _)).1 0 text later h

end Typeahead.Source
