import Mathlib.Data.List.TakeWhile
import Typeahead.Proofs.Text.Place

namespace Typeahead.Text

/-- Some first part of the text has so many bytes. -/
def IsBoundary (n : Nat) (cs : List Char) : Prop :=
  ∃ before after, cs = before ++ after ∧ utf8Length before = n

theorem isBoundary_append (before after : List Char) : IsBoundary (utf8Length before) (before ++ after) :=
  ⟨before, after, rfl, rfl⟩

theorem isBoundary_zero (cs : List Char) : IsBoundary 0 cs := ⟨[], cs, rfl, rfl⟩

theorem isBoundary_utf8Length (cs : List Char) : IsBoundary (utf8Length cs) cs := ⟨cs, [], by simp, rfl⟩

theorem IsBoundary.le {n : Nat} {cs : List Char} (boundary : IsBoundary n cs) : n ≤ utf8Length cs := by
  obtain ⟨before, after, rfl, rfl⟩ := boundary
  rw [utf8Length_append]
  omega

theorem IsBoundary.append_left {n : Nat} {cs : List Char} (boundary : IsBoundary n cs) (front : List Char) :
    IsBoundary (utf8Length front + n) (front ++ cs) := by
  obtain ⟨before, after, rfl, rfl⟩ := boundary
  exact ⟨front ++ before, after, by simp, by simp⟩

theorem IsBoundary.append_right {n : Nat} {cs : List Char} (boundary : IsBoundary n cs) (back : List Char) :
    IsBoundary n (cs ++ back) := by
  obtain ⟨before, after, rfl, size⟩ := boundary
  exact ⟨before, after ++ back, by simp, size⟩

theorem isBoundary_max {a b : Nat} {cs : List Char} (first : IsBoundary a cs) (second : IsBoundary b cs) :
    IsBoundary (max a b) cs := by
  rcases Nat.le_total a b with le | le
  · rwa [Nat.max_eq_right le]
  · rwa [Nat.max_eq_left le]

theorem isBoundary_iff_cut {n : Nat} {cs : List Char} :
    IsBoundary n cs ↔ ∃ parts, cut n cs = .ok parts := by
  constructor
  · rintro ⟨before, after, rfl, rfl⟩
    exact ⟨_, cut_append before after⟩
  · rintro ⟨⟨before, after⟩, parts⟩
    obtain ⟨whole, size⟩ := cut_eq_ok parts
    exact ⟨before, after, whole, size⟩

theorem bind_eq_ok {α β : Type} {x : Except CutError α} {f : α → Except CutError β} {b : β} :
    (x >>= f) = .ok b ↔ ∃ a, x = .ok a ∧ f a = .ok b := by
  cases x <;> simp [bind, Except.bind]

theorem map_eq_ok {α β : Type} {x : Except CutError α} {f : α → β} {b : β} :
    x.map f = .ok b ↔ ∃ a, x = .ok a ∧ f a = b := by
  cases x <;> simp [Except.map]

theorem cut_floorBoundary (n : Nat) (cs : List Char) :
    cut (floorBoundary n cs) cs = .ok (upTo n cs, after n cs) := by
  have parts := cut_append (upTo n cs) (after n cs)
  rwa [upTo_append_after] at parts

theorem isBoundary_floorBoundary (n : Nat) (cs : List Char) : IsBoundary (floorBoundary n cs) cs :=
  isBoundary_iff_cut.mpr ⟨_, cut_floorBoundary n cs⟩

theorem upTo_append (before rest : List Char) : upTo (utf8Length before) (before ++ rest) = before := by
  induction before with
  | nil =>
    cases rest with
    | nil => rfl
    | cons c rest =>
      have : ¬ c.utf8Size ≤ 0 := by have := c.utf8Size_pos; omega
      simp [upTo, this]
  | cons c before ih => simp [upTo, ih]

theorem after_append (before rest : List Char) : after (utf8Length before) (before ++ rest) = rest := by
  have whole := upTo_append_after (utf8Length before) (before ++ rest)
  rw [upTo_append] at whole
  exact List.append_cancel_left whole

/-- A boundary is its own greatest boundary. -/
theorem IsBoundary.floorBoundary {n : Nat} {cs : List Char} (boundary : IsBoundary n cs) :
    floorBoundary n cs = n := by
  obtain ⟨before, rest, rfl, rfl⟩ := boundary
  rw [Text.floorBoundary, upTo_append]

theorem utf8Length_toList (s : String) : utf8Length s.toList = s.utf8ByteSize := by
  have ofList : ∀ cs : List Char, utf8Length cs = (String.ofList cs).utf8ByteSize := by
    intro cs
    induction cs with
    | nil => rfl
    | cons c cs ih =>
      have front : String.ofList (c :: cs) = String.ofList [c] ++ String.ofList cs := by
        rw [← String.ofList_append, List.singleton_append]
      have one : (String.ofList [c]).utf8ByteSize = c.utf8Size := by
        rw [← String.singleton_eq_ofList, String.utf8ByteSize_singleton]
      rw [utf8Length_cons, ih, front, String.utf8ByteSize_append, one]
  rw [ofList, String.ofList_toList]

/-- Parts that begin one text are first parts of each other, in the order of their lengths. -/
theorem append_eq_append_of_le {a b c d : List Char} (same : a ++ b = c ++ d)
    (le : utf8Length a ≤ utf8Length c) : ∃ mid, c = a ++ mid ∧ b = mid ++ d := by
  rcases List.append_eq_append_iff.mp same with ⟨mid, longer, rest⟩ | ⟨mid, longer, rest⟩
  · exact ⟨mid, longer, rest⟩
  · have none : mid = [] := by
      cases mid with
      | nil => rfl
      | cons x xs =>
        have := x.utf8Size_pos
        rw [longer, utf8Length_append, utf8Length_cons] at le
        omega
    subst none
    exact ⟨[], by simpa using longer.symm, by simpa using rest.symm⟩

/-- The piece of a text between two byte offsets; an error when one of them is no boundary, or when they
are the wrong way round. -/
def slice (start stop : Nat) (cs : List Char) : Except CutError (List Char) := do
  let (front, _) ← cut stop cs
  let (_, piece) ← cut start front
  return piece

theorem slice_eq_ok_iff {start stop : Nat} {cs piece : List Char} :
    slice start stop cs = .ok piece ↔
      ∃ before after, cs = before ++ piece ++ after ∧ utf8Length before = start ∧
        utf8Length (before ++ piece) = stop := by
  constructor
  · intro taken
    obtain ⟨⟨front, after⟩, outer, inside⟩ := bind_eq_ok.mp taken
    obtain ⟨⟨before, last⟩, inner, same⟩ := bind_eq_ok.mp inside
    obtain ⟨whole, stopSize⟩ := cut_eq_ok outer
    obtain ⟨rfl, startSize⟩ := cut_eq_ok inner
    simp only [pure, Except.pure, Except.ok.injEq] at same
    subst same
    exact ⟨before, after, whole, startSize, stopSize⟩
  · rintro ⟨before, after, rfl, rfl, rfl⟩
    unfold slice
    simp only [cut_append, bind, Except.bind, pure, Except.pure]

theorem slice_append (before piece after : List Char) :
    slice (utf8Length before) (utf8Length before + utf8Length piece) (before ++ piece ++ after) =
      .ok piece :=
  slice_eq_ok_iff.mpr ⟨before, after, rfl, rfl, by simp⟩

theorem slice_of_append {start stop : Nat} {cs piece : List Char} (before rest : List Char)
    (whole : cs = before ++ piece ++ rest) (starts : utf8Length before = start)
    (stops : start + utf8Length piece = stop) : slice start stop cs = .ok piece := by
  subst whole starts stops
  exact slice_append before piece rest

theorem between_of_slice {start stop : Nat} {cs piece : List Char}
    (taken : slice start (max stop start) cs = .ok piece) : between start stop cs = piece := by
  obtain ⟨before, rest, rfl, rfl, size⟩ := slice_eq_ok_iff.mp taken
  rw [utf8Length_append] at size
  have length : stop - utf8Length before = utf8Length piece := by omega
  rw [between, List.append_assoc, after_append, length, upTo_append]

/-- Any two boundaries in their order bound a piece. -/
theorem IsBoundary.slice {start stop : Nat} {cs : List Char} (starts : IsBoundary start cs)
    (stops : IsBoundary stop cs) (le : start ≤ stop) : ∃ piece, slice start stop cs = .ok piece := by
  obtain ⟨before, after, rfl, rfl⟩ := starts
  obtain ⟨front, back, same, rfl⟩ := stops
  obtain ⟨piece, rfl, rfl⟩ := append_eq_append_of_le same le
  exact ⟨piece, slice_eq_ok_iff.mpr ⟨before, back, by simp, rfl, rfl⟩⟩

theorem IsBoundary.of_slice {start stop : Nat} {cs piece : List Char}
    (taken : Text.slice start stop cs = .ok piece) :
    IsBoundary start cs ∧ IsBoundary stop cs ∧ start ≤ stop := by
  obtain ⟨before, after, rfl, rfl, rfl⟩ := slice_eq_ok_iff.mp taken
  refine ⟨⟨before, piece ++ after, by simp, rfl⟩, ⟨before ++ piece, after, rfl, rfl⟩, ?_⟩
  rw [utf8Length_append]
  omega

/-- The last character of a kind, and none of that kind behind it. -/
theorem eq_append_of_breakLast {p : Char → Bool} {cs earlier later : List Char} {c : Char}
    (h : breakLast p cs = some (earlier, c, later)) :
    cs = earlier ++ c :: later ∧ p c = true ∧ ∀ x ∈ later, p x = false := by
  unfold breakLast at h
  obtain ⟨⟨front, found, back⟩, first, same⟩ := Option.map_eq_some_iff.mp h
  simp only [Prod.mk.injEq] at same
  obtain ⟨rfl, rfl, rfl⟩ := same
  obtain ⟨whole, passes, none⟩ := eq_append_of_breakFirst first
  refine ⟨?_, passes, fun x inside => none x (List.mem_reverse.mp inside)⟩
  have := congrArg List.reverse whole
  simpa using this

theorem suffix_of_breakLast {p : Char → Bool} {cs earlier later : List Char} {c : Char}
    (h : breakLast p cs = some (earlier, c, later)) : later <:+ cs :=
  ⟨earlier ++ [c], by simp [(eq_append_of_breakLast h).1]⟩

theorem suffix_of_breakFirst {p : Char → Bool} {cs earlier later : List Char} {c : Char}
    (h : breakFirst p cs = some (earlier, c, later)) : later <:+ cs :=
  ⟨earlier ++ [c], by simp [(eq_append_of_breakFirst h).1]⟩

theorem afterFirstByte_cons (c : Char) (cs : List Char) :
    afterFirstByte (c :: cs) = if c.utf8Size = 1 then .ok cs else .error .offBoundary := by
  have positive := c.utf8Size_pos
  by_cases narrow : c.utf8Size = 1
  · simp [afterFirstByte, cut, narrow, Except.map]
  · have wide : ¬ c.utf8Size ≤ 1 := by omega
    simp [afterFirstByte, cut, narrow, wide, Except.map]

/-- The separator in front of the last word takes more than one byte. -/
def EndsBehindWide (p : Char → Bool) (text : List Char) : Prop :=
  ∃ earlier c word, text = earlier ++ c :: word ∧ p c = true ∧ (∀ x ∈ word, p x = false) ∧ 1 < c.utf8Size

/-- The text behind the last separator, cut off one byte behind the start of the separator. -/
def behindLast (p : Char → Bool) (text : List Char) : Except CutError (List Char) :=
  match breakLast p text with
  | none => .ok text
  | some (_, c, word) => afterFirstByte (c :: word)

theorem suffix_of_behindLast {p : Char → Bool} {text word : List Char}
    (cutOff : behindLast p text = .ok word) : word <:+ text := by
  unfold behindLast at cutOff
  split at cutOff
  · simp only [Except.ok.injEq] at cutOff
    exact cutOff ▸ List.suffix_rfl
  · next earlier c later found =>
    have whole := (eq_append_of_breakLast found).1
    rw [afterFirstByte_cons] at cutOff
    split at cutOff
    · simp only [Except.ok.injEq] at cutOff
      subst cutOff
      exact ⟨earlier ++ [c], by simp [whole]⟩
    · simp at cutOff

theorem behindLast_isOk_iff {p : Char → Bool} {text : List Char} :
    (∃ word, behindLast p text = .ok word) ↔ ¬ EndsBehindWide p text := by
  unfold behindLast
  constructor
  · rintro ⟨word, cutOff⟩ ⟨earlier, c, rest, rfl, here, absent, wide⟩
    have behind : ¬ c.utf8Size = 1 := by omega
    simp [breakLast_append here absent, afterFirstByte_cons, behind] at cutOff
  · intro narrow
    split
    · exact ⟨text, rfl⟩
    · next earlier c word found =>
      obtain ⟨whole, here, absent⟩ := eq_append_of_breakLast found
      have positive := c.utf8Size_pos
      have single : c.utf8Size = 1 := by
        have := mt (fun wide => ⟨earlier, c, word, whole, here, absent, wide⟩) narrow
        omega
      exact ⟨word, by simp [afterFirstByte_cons, single]⟩

/-- Nothing goes wrong where every separator takes one byte. -/
theorem not_endsBehindWide {p : Char → Bool} {text : List Char}
    (narrow : ∀ c ∈ text, p c = true → c.utf8Size = 1) : ¬ EndsBehindWide p text := by
  rintro ⟨earlier, c, word, rfl, here, -, wide⟩
  have := narrow c (by simp) here
  omega

end Typeahead.Text
