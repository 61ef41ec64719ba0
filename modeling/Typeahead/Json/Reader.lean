import Typeahead.Json.Basic
import Typeahead.Text.Numeral

namespace Typeahead.Json

open Text

inductive Token where
  | openArray
  | closeArray
  | openObject
  | closeObject
  | colon
  | comma
  | scalar (value : Json)
  deriving Repr

def isSpace (c : Char) : Bool := c == ' ' || c == '\t' || c == '\n' || c == '\r'

/-- The value of four hexadecimal digits. -/
def hexUnit? (a b c d : Char) : Option Nat := do
  return ((← hexValue? a) * 16 + (← hexValue? b)) * 256 + (← hexValue? c) * 16 + (← hexValue? d)

def shortEscape? (c : Char) : Option Nat :=
  match c with
  | '"' => some 0x22
  | '\\' => some 0x5c
  | '/' => some 0x2f
  | 'b' => some 0x08
  | 'f' => some 0x0c
  | 'n' => some 0x0a
  | 'r' => some 0x0d
  | 't' => some 0x09
  | _ => none

/-- The numbers of the characters and escaped units of a string, after its opening quote, and what
follows its closing one. -/
def stringUnits? : List Char → Option (List Nat × List Char)
  | [] => none
  | '"' :: rest => some ([], rest)
  | '\\' :: 'u' :: a :: b :: c :: d :: rest => do
    let unit ← hexUnit? a b c d
    let (units, later) ← stringUnits? rest
    return (unit :: units, later)
  | '\\' :: c :: rest => do
    let unit ← shortEscape? c
    let (units, later) ← stringUnits? rest
    return (unit :: units, later)
  | c :: rest =>
    if c.toNat < 0x20 ∨ c = '\\' then none
    else do
      let (units, later) ← stringUnits? rest
      return (c.toNat :: units, later)

/-- Surrogate pairs joined; a surrogate that stands alone has no character. -/
def joinSurrogates? : List Nat → Option (List Char)
  | [] => some []
  | [n] => if 0xd800 ≤ n ∧ n < 0xe000 then none else some [Char.ofNat n]
  | n :: m :: rest =>
    if 0xd800 ≤ n ∧ n < 0xdc00 then
      if 0xdc00 ≤ m ∧ m < 0xe000 then
        (joinSurrogates? rest).map (Char.ofNat (0x10000 + (n - 0xd800) * 0x400 + (m - 0xdc00)) :: ·)
      else none
    else if 0xdc00 ≤ n ∧ n < 0xe000 then none
    else (joinSurrogates? (m :: rest)).map (Char.ofNat n :: ·)

def isNumberChar (c : Char) : Bool :=
  c.isDigit || c == '-' || c == '+' || c == '.' || c == 'e' || c == 'E'

/-- At least one digit, then nothing else. -/
def areDigits (cs : List Char) : Bool := !cs.isEmpty && cs.all Char.isDigit

def isExponent : List Char → Bool
  | '+' :: cs | '-' :: cs => areDigits cs
  | cs => areDigits cs

/-- What may follow the integer part of a number. -/
def isFraction (cs : List Char) : Bool :=
  match cs with
  | [] => true
  | '.' :: rest =>
    let digits := rest.takeWhile Char.isDigit
    !digits.isEmpty &&
      match rest.dropWhile Char.isDigit with
      | [] => true
      | c :: exponent => (c == 'e' || c == 'E') && isExponent exponent
  | c :: exponent => (c == 'e' || c == 'E') && isExponent exponent

def isUnsignedNumber (cs : List Char) : Bool :=
  match cs with
  | '0' :: rest => isFraction rest
  | _ => !(cs.takeWhile Char.isDigit).isEmpty && isFraction (cs.dropWhile Char.isDigit)

def isNumber : List Char → Bool
  | '-' :: cs => isUnsignedNumber cs
  | cs => isUnsignedNumber cs

/-- The value of a word or a number. -/
def plainValue? (cs : List Char) : Option Json :=
  match String.ofList cs with
  | "null" => some .null
  | "true" => some (.bool true)
  | "false" => some (.bool false)
  | literal => if isNumber cs then some (.number literal) else none

def isPlainChar (c : Char) : Bool := c.isAlpha || isNumberChar c

/-- The token that starts with `c`, and what follows it. -/
def token? (c : Char) (cs : List Char) : Option (Token × List Char) :=
  match c with
  | '[' => some (.openArray, cs)
  | ']' => some (.closeArray, cs)
  | '{' => some (.openObject, cs)
  | '}' => some (.closeObject, cs)
  | ':' => some (.colon, cs)
  | ',' => some (.comma, cs)
  | '"' => do
    let (units, later) ← stringUnits? cs
    let text ← joinSurrogates? units
    return (.scalar (.string (String.ofList text)), later)
  | _ => do
    let value ← plainValue? (c :: cs.takeWhile isPlainChar)
    return (.scalar value, cs.dropWhile isPlainChar)

theorem stringUnits?_length_lt {cs later : List Char} {units : List Nat}
    (h : stringUnits? cs = some (units, later)) : later.length < cs.length := by
  fun_induction stringUnits? cs generalizing units later with
  | case1 => simp at h
  | case2 rest => simp only [Option.some.injEq, Prod.mk.injEq] at h; simp [← h.2]
  | case3 a b c d rest ih =>
    simp only [Option.bind_eq_bind, Option.bind_eq_some_iff, Prod.exists] at h
    obtain ⟨_, _, units', later', found, same⟩ := h
    simp only [Option.pure_def, Option.some.injEq, Prod.mk.injEq] at same
    have := ih found
    simp only [← same.2, List.length_cons]; omega
  | case4 c rest _ ih =>
    simp only [Option.bind_eq_bind, Option.bind_eq_some_iff, Prod.exists] at h
    obtain ⟨_, _, units', later', found, same⟩ := h
    simp only [Option.pure_def, Option.some.injEq, Prod.mk.injEq] at same
    have := ih found
    simp only [← same.2, List.length_cons]; omega
  | case5 => simp at h
  | case6 c rest _ _ _ _ ih =>
    simp only [Option.bind_eq_bind, Option.bind_eq_some_iff, Prod.exists] at h
    obtain ⟨units', later', found, same⟩ := h
    simp only [Option.pure_def, Option.some.injEq, Prod.mk.injEq] at same
    have := ih found
    simp only [← same.2, List.length_cons]; omega

theorem token?_length_le {c : Char} {cs later : List Char} {t : Token}
    (h : token? c cs = some (t, later)) : later.length ≤ cs.length := by
  unfold token? at h
  split at h
  case h_7 =>
    simp only [Option.bind_eq_bind, Option.bind_eq_some_iff, Prod.exists] at h
    obtain ⟨units, later', found, _, _, same⟩ := h
    simp only [Option.pure_def, Option.some.injEq, Prod.mk.injEq] at same
    have := stringUnits?_length_lt found
    rw [← same.2]; omega
  case h_8 =>
    simp only [Option.bind_eq_bind, Option.bind_eq_some_iff] at h
    obtain ⟨_, _, same⟩ := h
    simp only [Option.pure_def, Option.some.injEq, Prod.mk.injEq] at same
    rw [← same.2]
    exact (List.dropWhile_sublist _).length_le
  all_goals
    simp only [Option.some.injEq, Prod.mk.injEq] at h
    exact Nat.le_of_eq (congrArg List.length h.2.symm)

/-- The tokens of a text; none when some part of it is no token. -/
def tokens? : List Char → Option (List Token)
  | [] => some []
  | c :: cs =>
    if isSpace c then tokens? cs
    else
      match _h : token? c cs with
      | none => none
      | some (t, later) => (tokens? later).map (t :: ·)
termination_by cs => cs.length
decreasing_by
  · simp
  · have := token?_length_le (by assumption); simp only [List.length_cons]; omega

/-- An array or object that is still open, with what it holds so far, backwards. -/
inductive Frame where
  | array (items : List Json)
  | object (fields : List (String × Json))
  /-- An object whose next value belongs to the name. -/
  | named (fields : List (String × Json)) (name : String)
  deriving Repr

/-- What may come next. -/
inductive Expect where
  /-- A value. -/
  | value
  /-- A value, or the end of an array that was just opened. -/
  | firstItem
  | name
  /-- A name, or the end of an object that was just opened. -/
  | firstName
  | colon
  /-- A comma or the end of the innermost array or object. -/
  | next
  | done (value : Json)
  deriving Repr

/-- The open arrays and objects, innermost first, and what may come next. -/
structure Reader where
  frames : List Frame := []
  expect : Expect := .value
  deriving Repr

/-- A whole value was read: it goes into the innermost open array or object. -/
def Reader.put? (frames : List Frame) (value : Json) : Option Reader :=
  match frames with
  | [] => some ⟨[], .done value⟩
  | .array items :: outer => some ⟨.array (value :: items) :: outer, .next⟩
  | .named fields name :: outer => some ⟨.object ((name, value) :: fields) :: outer, .next⟩
  | .object _ :: _ => none

def Reader.step? (r : Reader) (t : Token) : Option Reader :=
  match r.expect, t, r.frames with
  | .value, .scalar value, frames | .firstItem, .scalar value, frames => put? frames value
  | .value, .openArray, frames | .firstItem, .openArray, frames => some ⟨.array [] :: frames, .firstItem⟩
  | .value, .openObject, frames | .firstItem, .openObject, frames =>
    some ⟨.object [] :: frames, .firstName⟩
  | .firstItem, .closeArray, .array items :: outer => put? outer (.array items.reverse)
  | .next, .closeArray, .array items :: outer => put? outer (.array items.reverse)
  | .firstName, .closeObject, .object fields :: outer => put? outer (.object fields.reverse)
  | .next, .closeObject, .object fields :: outer => put? outer (.object fields.reverse)
  | .next, .comma, .array items :: outer => some ⟨.array items :: outer, .value⟩
  | .next, .comma, .object fields :: outer => some ⟨.object fields :: outer, .name⟩
  | .name, .scalar (.string name), .object fields :: outer => some ⟨.named fields name :: outer, .colon⟩
  | .firstName, .scalar (.string name), .object fields :: outer =>
    some ⟨.named fields name :: outer, .colon⟩
  | .colon, .colon, frames => some ⟨frames, .value⟩
  | _, _, _ => none

/-- The value that a text spells, with nothing but blanks around it. -/
def parse? (text : String) : Option Json := do
  let ts ← tokens? text.toList
  let reader ← ts.foldlM Reader.step? {}
  match reader.expect with
  | .done value => some value
  | _ => none

end Typeahead.Json
