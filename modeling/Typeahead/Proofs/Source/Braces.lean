import Mathlib.Data.List.Basic
import Typeahead.Proofs.Text.Boundary
import Typeahead.Proofs.Text.Place
import Typeahead.Source.TypeRegion

namespace Typeahead.Source

open Text

/-- Behind `depth` open braces, no first part of the text closes more braces than are open. -/
def StaysOpen (depth : Nat) (cs : List Char) : Prop :=
  ∀ front : List Char, front <+: cs → front.count '}' ≤ front.count '{' + depth

variable {depth offset : Nat} {c : Char} {cs ds inside later body : List Char}

theorem staysOpen_nil (depth : Nat) : StaysOpen depth [] := by
  intro front first
  rw [List.prefix_nil.mp first]
  exact Nat.zero_le _

theorem StaysOpen.of_append (whole : StaysOpen depth (cs ++ ds)) : StaysOpen depth cs :=
  fun front first => whole front (first.trans (List.prefix_append cs ds))

theorem staysOpen_cons :
    StaysOpen depth (c :: cs) ↔
      ∀ front : List Char, front <+: cs → (c :: front).count '}' ≤ (c :: front).count '{' + depth := by
  constructor
  · intro whole front first
    exact whole (c :: front) (List.cons_prefix_cons.mpr ⟨rfl, first⟩)
  · intro tails front first
    rcases List.prefix_cons_iff.mp first with rfl | ⟨tail, rfl, rest⟩
    · exact Nat.zero_le _
    · exact tails tail rest

theorem staysOpen_opening : StaysOpen depth ('{' :: cs) ↔ StaysOpen (depth + 1) cs := by
  rw [staysOpen_cons]
  refine forall₂_congr fun front _ => ?_
  simp only [List.count_cons_self, List.count_cons_of_ne (by decide : '{' ≠ '}')]
  omega

theorem staysOpen_closing : StaysOpen (depth + 1) ('}' :: cs) ↔ StaysOpen depth cs := by
  rw [staysOpen_cons]
  refine forall₂_congr fun front _ => ?_
  simp only [List.count_cons_self, List.count_cons_of_ne (by decide : '}' ≠ '{')]
  omega

theorem not_staysOpen_closing (cs : List Char) : ¬ StaysOpen 0 ('}' :: cs) :=
  fun whole => absurd (whole ['}'] ⟨cs, rfl⟩) (by decide)

theorem staysOpen_other (notOpening : c ≠ '{') (notClosing : c ≠ '}') :
    StaysOpen depth (c :: cs) ↔ StaysOpen depth cs := by
  rw [staysOpen_cons]
  refine forall₂_congr fun front _ => ?_
  rw [List.count_cons_of_ne notOpening, List.count_cons_of_ne notClosing]

/-- The text closes the outermost of `depth + 1` braces that are open in front of it, right behind `inside`. -/
structure ClosesBehind (depth : Nat) (inside cs : List Char) : Prop where
  brace : inside ++ ['}'] <+: cs
  stays : StaysOpen depth inside
  even : inside.count '}' = inside.count '{' + depth

theorem ClosesBehind.opening (closes : ClosesBehind (depth + 1) inside cs) :
    ClosesBehind depth ('{' :: inside) ('{' :: cs) where
  brace := List.cons_prefix_cons.mpr ⟨rfl, closes.brace⟩
  stays := staysOpen_opening.mpr closes.stays
  even := by
    rw [List.count_cons_of_ne (by decide), List.count_cons_self, closes.even]
    omega

theorem ClosesBehind.closing (closes : ClosesBehind depth inside cs) :
    ClosesBehind (depth + 1) ('}' :: inside) ('}' :: cs) where
  brace := List.cons_prefix_cons.mpr ⟨rfl, closes.brace⟩
  stays := staysOpen_closing.mpr closes.stays
  even := by
    rw [List.count_cons_self, List.count_cons_of_ne (by decide), closes.even]
    omega

theorem ClosesBehind.other (notOpening : c ≠ '{') (notClosing : c ≠ '}') (closes : ClosesBehind depth inside cs) :
    ClosesBehind depth (c :: inside) (c :: cs) where
  brace := List.cons_prefix_cons.mpr ⟨rfl, closes.brace⟩
  stays := (staysOpen_other notOpening notClosing).mpr closes.stays
  even := by rw [List.count_cons_of_ne notOpening, List.count_cons_of_ne notClosing, closes.even]

/-- A text stays open, or some brace in it closes the outermost one that is open in front of it. -/
theorem staysOpen_or_closesBehind (depth : Nat) (cs : List Char) :
    StaysOpen depth cs ∨ ∃ inside, ClosesBehind depth inside cs := by
  induction cs generalizing depth with
  | nil => exact .inl (staysOpen_nil depth)
  | cons c cs ih =>
    by_cases opens : c = '{'
    · subst opens
      rw [staysOpen_opening]
      exact (ih (depth + 1)).imp_right fun ⟨_, closes⟩ => ⟨_, closes.opening⟩
    · by_cases closes : c = '}'
      · subst closes
        cases depth with
        | zero => exact .inr ⟨[], ⟨cs, rfl⟩, staysOpen_nil 0, rfl⟩
        | succ depth =>
          rw [staysOpen_closing]
          exact (ih depth).imp_right fun ⟨_, closes⟩ => ⟨_, closes.closing⟩
      · rw [staysOpen_other opens closes]
        exact (ih depth).imp_right fun ⟨_, behind⟩ => ⟨_, behind.other opens closes⟩

/-- The search for the closing brace goes past a text that stays open and counts the braces that are open behind
it. -/
theorem closingBrace_append {level : Nat} (within : StaysOpen depth inside)
    (balance : inside.count '}' + level = inside.count '{' + depth) (offset : Nat) (later : List Char) :
    closingBrace offset (depth + 1) (inside ++ later) =
      closingBrace (offset + utf8Length inside) (level + 1) later := by
  induction inside generalizing depth offset with
  | nil =>
    obtain rfl : level = depth := by simpa using balance
    rfl
  | cons c inside ih =>
    rw [utf8Length_cons, ← Nat.add_assoc, List.cons_append]
    by_cases opens : c = '{'
    · subst opens
      rw [List.count_cons_of_ne (by decide), List.count_cons_self] at balance
      rw [closingBrace, if_pos rfl, ih (staysOpen_opening.mp within) (by omega)]
    · by_cases closes : c = '}'
      · subst closes
        cases depth with
        | zero => exact absurd within (not_staysOpen_closing inside)
        | succ depth =>
          rw [List.count_cons_self, List.count_cons_of_ne (by decide)] at balance
          rw [closingBrace, if_neg opens, if_pos rfl, if_neg (by omega), Nat.add_sub_cancel,
            ih (staysOpen_closing.mp within) (by omega)]
      · rw [List.count_cons_of_ne opens, List.count_cons_of_ne closes] at balance
        rw [closingBrace, if_neg opens, if_neg closes, ih ((staysOpen_other opens closes).mp within) balance]

theorem closingBrace_of_staysOpen (within : StaysOpen 0 cs) (offset : Nat) : closingBrace offset 1 cs = none := by
  have balance : cs.count '}' + (cs.count '{' - cs.count '}') = cs.count '{' + 0 := by
    have := within cs List.prefix_rfl
    omega
  have read := closingBrace_append within balance offset []
  rw [List.append_nil] at read
  rw [read]
  rfl

theorem closingBrace_of_closesBehind (closes : ClosesBehind 0 inside cs) (offset : Nat) :
    closingBrace offset 1 cs = some (offset + utf8Length inside) := by
  obtain ⟨⟨later, rfl⟩, within, even⟩ := closes
  have balance : inside.count '}' + 0 = inside.count '{' + 0 := even
  have read := closingBrace_append within balance offset ('}' :: later)
  rw [List.append_assoc, List.singleton_append, read]
  rfl

/-- Where the brace in front of a body is closed, if the body starts at `start`. -/
inductive Closes (start : Nat) (body : List Char) : Option Nat → Prop
  | never (within : StaysOpen 0 body) : Closes start body none
  | behind {inside : List Char} (closes : ClosesBehind 0 inside body) :
      Closes start body (some (start + utf8Length inside))

/-- The search for the closing brace finds it. -/
theorem closes_iff {start : Nat} {closing : Option Nat} :
    Closes start body closing ↔ closingBrace start 1 body = closing := by
  constructor
  · rintro (within | closes)
    · exact closingBrace_of_staysOpen within start
    · exact closingBrace_of_closesBehind closes start
  · rintro rfl
    rcases staysOpen_or_closesBehind 0 body with within | ⟨inside, closes⟩
    · rw [closingBrace_of_staysOpen within]
      exact .never within
    · rw [closingBrace_of_closesBehind closes]
      exact .behind closes

/-- Offsets of the braces around the body of a declaration; an extent without a closing one has no end. -/
structure BraceExtent where
  opening : Nat
  closing : Option Nat

def BraceExtent.Within (inner outer : BraceExtent) : Prop :=
  outer.opening ≤ inner.opening ∧ ∀ stop ∈ outer.closing, ∃ innerStop ∈ inner.closing, innerStop ≤ stop

/-- The first brace behind the place is reached without a semicolon, and the extent is that of this brace. -/
def HasExtent (p : Place) (extent : BraceExtent) : Prop :=
  ∃ header body : List Char, p.rest = header ++ '{' :: body ∧ '{' ∉ header ∧ ';' ∉ header ∧
    extent.opening = p.offset + utf8Length header ∧ Closes (extent.opening + 1) body extent.closing

/-- What stands between two places of a text. -/
theorem exists_between {text : List Char} {p q : Place} (inText : p ∈ places text) (alsoInText : q ∈ places text)
    (le : p.offset ≤ q.offset) : ∃ mid, p.rest = mid ++ q.rest ∧ q.offset = p.offset + utf8Length mid := by
  obtain ⟨split, offset⟩ := mem_places inText
  obtain ⟨otherSplit, otherOffset⟩ := mem_places alsoInText
  rw [offset, otherOffset] at le
  obtain ⟨mid, longer, rest⟩ := append_eq_append_of_le (split.symm.trans otherSplit) le
  exact ⟨mid, rest, by rw [otherOffset, longer, utf8Length_append, offset]⟩

theorem eq_of_first {a b x y : List Char} (noneBefore : c ∉ a) (alsoNone : c ∉ b) (same : a ++ c :: x = b ++ c :: y) :
    a = b ∧ x = y := by
  have here : (c == c) = true := beq_self_eq_true c
  have left : breakFirst (· == c) (a ++ c :: x) = some (a, c, x) :=
    breakFirst_append (fun d inside => beq_false_of_ne fun eq => noneBefore (eq ▸ inside)) here
  have right : breakFirst (· == c) (b ++ c :: y) = some (b, c, y) :=
    breakFirst_append (fun d inside => beq_false_of_ne fun eq => alsoNone (eq ▸ inside)) here
  rw [same, right] at left
  simp only [Option.some.injEq, Prod.mk.injEq] at left
  exact ⟨left.1.symm, left.2.2.symm⟩

theorem lt_utf8Length_append_cons (a : List Char) (c : Char) (b : List Char) :
    utf8Length a < utf8Length (a ++ c :: b) := by
  have := c.utf8Size_pos
  rw [utf8Length_append, utf8Length_cons]
  omega

/-- A brace opened somewhere behind another one is opened behind the end of that one, or closed before it. -/
theorem ClosesBehind.apart_or_nested {front rest : List Char}
    (closes : ClosesBehind 0 inside (front ++ '{' :: rest)) :
    utf8Length inside < utf8Length front ∨
      ∃ deeper, ClosesBehind 0 deeper rest ∧ utf8Length (front ++ '{' :: deeper) ≤ utf8Length inside := by
  obtain ⟨⟨later, same⟩, within, even⟩ := closes
  rw [List.append_assoc, List.singleton_append] at same
  rcases List.append_eq_append_iff.mp same with ⟨between, longer, rest'⟩ | ⟨between, rfl, rest'⟩
  · rcases List.cons_eq_append_iff.mp rest' with ⟨-, impossible⟩ | ⟨more, rfl, -⟩
    · simp at impossible
    · rw [longer]
      exact .inl (lt_utf8Length_append_cons inside '}' more)
  · rcases List.cons_eq_append_iff.mp rest' with ⟨-, impossible⟩ | ⟨body, rfl, rfl⟩
    · simp at impossible
    · have opened : ¬ StaysOpen 0 body := by
        intro stays
        have before := within.of_append front List.prefix_rfl
        have inBody := stays body List.prefix_rfl
        rw [List.count_append, List.count_append, List.count_cons_self, List.count_cons_of_ne (by decide)] at even
        omega
      obtain ⟨deeper, brace, deeperOpen, deeperEven⟩ := (staysOpen_or_closesBehind 0 body).resolve_left opened
      refine .inr ⟨deeper, ⟨brace.trans (List.prefix_append _ _), deeperOpen, deeperEven⟩, ?_⟩
      obtain ⟨more, rfl⟩ := brace
      simp only [utf8Length_append, utf8Length_cons]
      omega

/-- Extents are nested or follow each other. Of two declarations the extent of the later one lies within that of
the earlier one, or behind its end. -/
theorem HasExtent.nested_or_apart {text : List Char} {p q : Place} {outer inner : BraceExtent}
    (inText : p ∈ places text) (alsoInText : q ∈ places text) (le : p.offset ≤ q.offset)
    (first : HasExtent p outer) (second : HasExtent q inner) :
    inner.Within outer ∨ ∃ stop ∈ outer.closing, stop < inner.opening := by
  obtain ⟨outerStart, outerStop⟩ := outer
  obtain ⟨innerStart, innerStop⟩ := inner
  obtain ⟨mid, between, distance⟩ := exists_between inText alsoInText le
  obtain ⟨header, body, split, noBrace, -, rfl, closes⟩ := first
  obtain ⟨innerHeader, innerBody, innerSplit, noInnerBrace, -, rfl, innerCloses⟩ := second
  rw [split, innerSplit] at between
  rw [closes_iff] at innerCloses
  simp only at closes innerCloses
  -- the two declarations share their brace unless the second one stands behind the brace of the first one
  have shared (rest : List Char) (noBrace : '{' ∉ rest)
      (place : q.offset + utf8Length rest = p.offset + utf8Length header)
      (same : rest ++ '{' :: body = innerHeader ++ '{' :: innerBody) :
      BraceExtent.Within ⟨q.offset + utf8Length innerHeader, innerStop⟩
        ⟨p.offset + utf8Length header, outerStop⟩ := by
    obtain ⟨rfl, rfl⟩ := eq_of_first noBrace noInnerBrace same
    rw [place] at innerCloses ⊢
    rw [closes_iff, innerCloses] at closes
    exact ⟨Nat.le_refl _, fun stop isStop => ⟨stop, closes ▸ isStop, Nat.le_refl stop⟩⟩
  rcases List.append_eq_append_iff.mp between with ⟨rest, longer, same⟩ | ⟨rest, shorter, same⟩
  · rcases List.cons_eq_append_iff.mp same with ⟨rfl, here⟩ | ⟨front, rfl, rfl⟩
    · exact .inl (shared [] (by simp) (by simp [distance, longer]) here.symm)
    · have brace : ('{' : Char).utf8Size = 1 := rfl
      rw [longer, utf8Length_append, utf8Length_cons, brace] at distance
      rw [← List.append_assoc] at closes
      cases closes with
      | never within => exact .inl ⟨by simp only; omega, fun stop isStop => absurd isStop (by simp)⟩
      | @behind inside closes =>
        rcases closes.apart_or_nested with apart | ⟨deeper, nested, le⟩
        · rw [utf8Length_append] at apart
          exact .inr ⟨_, rfl, by simp only; omega⟩
        · rw [closingBrace_of_closesBehind nested] at innerCloses
          rw [utf8Length_append, utf8Length_append, utf8Length_cons, brace] at le
          refine .inl ⟨by simp only; omega, ?_⟩
          rintro stop ⟨rfl⟩
          exact ⟨_, innerCloses.symm, by omega⟩
  · refine .inl (shared rest (fun inside => noBrace (by simp [shorter, inside])) ?_ same.symm)
    rw [shorter, utf8Length_append]
    omega

end Typeahead.Source
