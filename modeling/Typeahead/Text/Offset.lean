namespace Typeahead.Text

/-- Number of bytes of the UTF-8 form. -/
def utf8Length : List Char → Nat
  | [] => 0
  | c :: cs => c.utf8Size + utf8Length cs

@[simp] theorem utf8Length_nil : utf8Length [] = 0 := rfl

@[simp] theorem utf8Length_cons (c : Char) (cs : List Char) :
    utf8Length (c :: cs) = c.utf8Size + utf8Length cs := rfl

@[simp] theorem utf8Length_append (a b : List Char) :
    utf8Length (a ++ b) = utf8Length a + utf8Length b := by
  induction a with
  | nil => simp
  | cons c a ih => simp only [List.cons_append, utf8Length_cons, ih]; omega

/-- Why a cut has no result. -/
inductive CutError where
  /-- The offset lies inside a character or past the end of the text. -/
  | offBoundary
  deriving DecidableEq, Repr

/-- The characters before and after a byte offset. -/
def cut : Nat → List Char → Except CutError (List Char × List Char)
  | 0, cs => .ok ([], cs)
  | _ + 1, [] => .error .offBoundary
  | n + 1, c :: cs =>
    if c.utf8Size ≤ n + 1 then
      match cut (n + 1 - c.utf8Size) cs with
      | .ok (before, after) => .ok (c :: before, after)
      | .error e => .error e
    else .error .offBoundary

theorem cut_eq_ok {n : Nat} {cs before after : List Char} (h : cut n cs = .ok (before, after)) :
    cs = before ++ after ∧ utf8Length before = n := by
  induction cs generalizing n before after with
  | nil =>
    cases n with
    | zero => simp only [cut, Except.ok.injEq, Prod.mk.injEq] at h; simp [← h.1, ← h.2]
    | succ n => simp [cut] at h
  | cons c cs ih =>
    cases n with
    | zero => simp only [cut, Except.ok.injEq, Prod.mk.injEq] at h; simp [← h.1, ← h.2]
    | succ n =>
      simp only [cut] at h
      split at h
      · next fits =>
        split at h
        · next b a inner =>
          simp only [Except.ok.injEq, Prod.mk.injEq] at h
          obtain ⟨rfl, rfl⟩ := h
          obtain ⟨rfl, size⟩ := ih inner
          exact ⟨rfl, by simp only [utf8Length_cons, size]; omega⟩
        · simp at h
      · simp at h

theorem cut_append (before rest : List Char) :
    cut (utf8Length before) (before ++ rest) = .ok (before, rest) := by
  induction before with
  | nil => cases rest <;> rfl
  | cons c before ih =>
    obtain ⟨n, size⟩ : ∃ n, c.utf8Size + utf8Length before = n + 1 :=
      ⟨c.utf8Size + utf8Length before - 1, by have := c.utf8Size_pos; omega⟩
    have left : n + 1 - c.utf8Size = utf8Length before := by omega
    simp only [utf8Length_cons, List.cons_append, size, cut, left, ih]
    rw [if_pos (by omega)]

/-- What follows the first byte; an error when the first character is longer than one byte. -/
def afterFirstByte (cs : List Char) : Except CutError (List Char) := (cut 1 cs).map (·.2)

/-- The longest part of the text from its start that has at most `n` bytes. -/
def upTo : Nat → List Char → List Char
  | _, [] => []
  | n, c :: cs => if c.utf8Size ≤ n then c :: upTo (n - c.utf8Size) cs else []

/-- What `upTo` leaves. -/
def after : Nat → List Char → List Char
  | _, [] => []
  | n, c :: cs => if c.utf8Size ≤ n then after (n - c.utf8Size) cs else c :: cs

theorem upTo_append_after (n : Nat) (cs : List Char) : upTo n cs ++ after n cs = cs := by
  induction cs generalizing n with
  | nil => rfl
  | cons c cs ih => by_cases h : c.utf8Size ≤ n <;> simp [upTo, after, h, ih]

theorem utf8Length_upTo_le (n : Nat) (cs : List Char) : utf8Length (upTo n cs) ≤ n := by
  induction cs generalizing n with
  | nil => simp [upTo]
  | cons c cs ih =>
    by_cases h : c.utf8Size ≤ n
    · have := ih (n - c.utf8Size); simp only [upTo, h, if_true, utf8Length_cons]; omega
    · simp [upTo, h]

/-- The greatest boundary between characters that is at most `n`. -/
def floorBoundary (n : Nat) (cs : List Char) : Nat := utf8Length (upTo n cs)

theorem floorBoundary_le (n : Nat) (cs : List Char) : floorBoundary n cs ≤ n :=
  utf8Length_upTo_le n cs

/-- The characters that start at an offset in `[start, stop)`. -/
def between (start stop : Nat) (cs : List Char) : List Char := upTo (stop - start) (after start cs)

end Typeahead.Text
