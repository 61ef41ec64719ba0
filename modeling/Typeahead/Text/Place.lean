import Typeahead.Text.Offset

namespace Typeahead.Text

/-- A position in a text. The characters before it are held nearest first. -/
structure Place where
  offset : Nat
  before : List Char
  rest : List Char
  deriving Repr

def placesFrom (offset : Nat) (before : List Char) : List Char → List Place
  | [] => []
  | c :: cs => ⟨offset, before, c :: cs⟩ :: placesFrom (offset + c.utf8Size) (c :: before) cs

/-- The position of every character, in order. -/
def places (cs : List Char) : List Place := placesFrom 0 [] cs

theorem mem_placesFrom {offset : Nat} {before cs : List Char} {p : Place}
    (h : p ∈ placesFrom offset before cs) :
    ∃ mid, cs = mid ++ p.rest ∧ p.before = mid.reverse ++ before ∧
      p.offset = offset + utf8Length mid := by
  induction cs generalizing offset before with
  | nil => simp [placesFrom] at h
  | cons c cs ih =>
    simp only [placesFrom, List.mem_cons] at h
    rcases h with rfl | h
    · exact ⟨[], by simp⟩
    · obtain ⟨mid, split, earlier, place⟩ := ih h
      exact ⟨c :: mid, by simp [← split], by simp [earlier], by simp only [place, utf8Length_cons]; omega⟩

/-- A place splits its text, and its offset is the number of bytes before it. -/
theorem mem_places {cs : List Char} {p : Place} (h : p ∈ places cs) :
    cs = p.before.reverse ++ p.rest ∧ p.offset = utf8Length p.before.reverse := by
  obtain ⟨mid, split, earlier, place⟩ := mem_placesFrom h
  simp only [List.append_nil] at earlier
  simp [earlier, ← split, place]

/-- Letters and digits of ASCII, the underscore, and every character outside ASCII. -/
def isIdentifierChar (c : Char) : Bool := c.isAlphanum || c == '_' || 0x80 ≤ c.toNat

/-- `word` stands here and touches no identifier character on either side. -/
def Place.hasWord (word : List Char) (p : Place) : Bool :=
  word.isPrefixOf p.rest && !p.before.head?.any isIdentifierChar &&
    !(p.rest.drop word.length).head?.any isIdentifierChar

def wordPlaces (word cs : List Char) : List Place := (places cs).filter (·.hasWord word)

def hasWord (word cs : List Char) : Bool := (places cs).any (·.hasWord word)

/-- The text around the first character that satisfies the test. -/
def breakFirst (p : Char → Bool) (cs : List Char) : Option (List Char × Char × List Char) :=
  match cs.dropWhile (!p ·) with
  | [] => none
  | c :: later => some (cs.takeWhile (!p ·), c, later)

theorem eq_append_of_breakFirst {p : Char → Bool} {cs earlier later : List Char} {c : Char}
    (h : breakFirst p cs = some (earlier, c, later)) :
    cs = earlier ++ c :: later ∧ p c = true ∧ ∀ x ∈ earlier, p x = false := by
  unfold breakFirst at h
  split at h
  · simp at h
  · next found rest eq =>
    simp only [Option.some.injEq, Prod.mk.injEq] at h
    obtain ⟨rfl, rfl, rfl⟩ := h
    refine ⟨?_, ?_, ?_⟩
    · rw [← eq, List.takeWhile_append_dropWhile]
    · have := List.head?_dropWhile_not (fun x => !p x) cs
      rw [eq] at this
      simpa using this
    · intro x inside
      simpa using List.all_eq_true.mp List.all_takeWhile x inside

/-- The text around the last character that satisfies the test. -/
def breakLast (p : Char → Bool) (cs : List Char) : Option (List Char × Char × List Char) :=
  (breakFirst p cs.reverse).map fun (later, c, earlier) => (earlier.reverse, c, later.reverse)

/-- The text around the first occurrence of `needle`. -/
def splitFirst (needle : List Char) : List Char → Option (List Char × List Char)
  | [] => none
  | c :: cs =>
    if needle.isPrefixOf (c :: cs) then some ([], (c :: cs).drop needle.length)
    else (splitFirst needle cs).map fun (earlier, later) => (c :: earlier, later)

/-- The text around the last occurrence of `needle`. -/
def splitLast (needle : List Char) : List Char → Option (List Char × List Char)
  | [] => none
  | c :: cs =>
    match splitLast needle cs with
    | some (earlier, later) => some (c :: earlier, later)
    | none =>
      if needle.isPrefixOf (c :: cs) then some ([], (c :: cs).drop needle.length) else none

theorem eq_append_of_splitLast {needle cs earlier later : List Char}
    (h : splitLast needle cs = some (earlier, later)) : cs = earlier ++ needle ++ later := by
  induction cs generalizing earlier later with
  | nil => simp [splitLast] at h
  | cons c cs ih =>
    simp only [splitLast] at h
    split at h
    · next before after found =>
      simp only [Option.some.injEq, Prod.mk.injEq] at h
      simp [ih found, ← h.1, ← h.2]
    · split at h
      · next found =>
        simp only [Option.some.injEq, Prod.mk.injEq] at h
        obtain ⟨rest, eq⟩ := List.isPrefixOf_iff_prefix.mp found
        simp [← h.1, ← h.2, ← eq]
      · simp at h

/-- Byte offset of the last occurrence of `needle`. -/
def lastOffset (needle cs : List Char) : Option Nat :=
  (splitLast needle cs).map fun (earlier, _) => utf8Length earlier

def contains (needle cs : List Char) : Bool := (splitFirst needle cs).isSome

/-- The parts between the characters that satisfy the test; never empty. -/
def fields (p : Char → Bool) : List Char → List (List Char)
  | [] => [[]]
  | c :: cs =>
    if p c then [] :: fields p cs
    else
      match fields p cs with
      | [] => [[c]]
      | first :: others => (c :: first) :: others

/-- What follows the last character that satisfies the test, or the whole text. -/
def lastField (p : Char → Bool) (cs : List Char) : List Char :=
  (cs.reverse.takeWhile (!p ·)).reverse

theorem lastField_suffix (p : Char → Bool) (cs : List Char) : lastField p cs <:+ cs := by
  have := List.reverse_suffix.mpr (List.takeWhile_prefix (p := (!p ·)) (l := cs.reverse))
  rwa [List.reverse_reverse] at this

/-- The rest of the text when it begins with `start`. -/
def dropStart? (start cs : List Char) : Option (List Char) :=
  if start.isPrefixOf cs then some (cs.drop start.length) else none

/-- `text` begins with `start` when ASCII letters are compared without their case. -/
def startsWithIgnoringCase (text start : List Char) : Bool :=
  (start.map Char.toLower).isPrefixOf (text.map Char.toLower)

def equalIgnoringCase (a b : List Char) : Bool := a.map Char.toLower == b.map Char.toLower

end Typeahead.Text
