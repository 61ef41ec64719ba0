import Typeahead.Proofs.Text.Place

namespace Typeahead.Text

theorem eq_append_of_not_mem_left {a b x y : List Char} {mark : Char} (same : a ++ b = x ++ mark :: y)
    (absent : mark ∉ a) : ∃ front, x = a ++ front ∧ b = front ++ mark :: y := by
  rcases List.append_eq_append_iff.mp same with ⟨front, first, second⟩ | ⟨back, first, second⟩
  · exact ⟨front, first, second⟩
  · cases back with
    | nil => exact ⟨[], by simpa using first.symm, by simpa using second.symm⟩
    | cons c back =>
      obtain ⟨rfl, -⟩ := List.cons.inj second
      exact absurd (by simp [first]) absent

theorem eq_append_of_not_mem_right {a b x y : List Char} {mark : Char} (same : a ++ b = x ++ mark :: y)
    (absent : mark ∉ b) : ∃ back, y = back ++ b ∧ a = x ++ mark :: back := by
  rcases List.append_eq_append_iff.mp same with ⟨front, first, second⟩ | ⟨back, first, second⟩
  · exact absurd (by simp [second]) absent
  · cases back with
    | nil => exact absurd (by rw [← List.nil_append b, ← second]; exact List.mem_cons_self) absent
    | cons c back =>
      obtain ⟨rfl, rest⟩ := List.cons.inj second
      exact ⟨back, rest, first⟩

theorem eq_append_last {p : Char → Bool} {text : List Char} (present : ∃ c ∈ text, p c = true) :
    ∃ earlier c later, text = earlier ++ c :: later ∧ p c = true ∧ ∀ x ∈ later, p x = false := by
  induction text with
  | nil => simp at present
  | cons c text ih =>
    by_cases behind : ∃ x ∈ text, p x = true
    · obtain ⟨earlier, d, later, rfl, here, absent⟩ := ih behind
      exact ⟨c :: earlier, d, later, rfl, here, absent⟩
    · have absent : ∀ x ∈ text, p x = false := by simpa using behind
      obtain ⟨d, member, here⟩ := present
      rcases List.mem_cons.mp member with rfl | inside
      · exact ⟨[], d, text, rfl, here, absent⟩
      · exact absurd ⟨d, inside, here⟩ behind

theorem eq_append_last_of_mem {text : List Char} {mark : Char} (member : mark ∈ text) :
    ∃ earlier later, text = earlier ++ mark :: later ∧ mark ∉ later := by
  obtain ⟨earlier, c, later, split, here, absent⟩ :=
    eq_append_last (p := (· == mark)) ⟨mark, member, beq_self_eq_true mark⟩
  obtain rfl := eq_of_beq here
  exact ⟨earlier, later, split, fun inside => by simpa using absent c inside⟩

theorem breakLast_mark {later : List Char} {mark : Char} (absent : mark ∉ later) (earlier : List Char) :
    breakLast (· == mark) (earlier ++ mark :: later) = some (earlier, mark, later) := by
  refine breakLast_append (beq_self_eq_true mark) fun c member => ?_
  rw [beq_eq_false_iff_ne]
  exact fun same => absent (same ▸ member)

theorem splitLast_eq_none {needle text : List Char} {mark : Char} (inNeedle : mark ∈ needle)
    (absent : mark ∉ text) : splitLast needle text = none := by
  cases found : splitLast needle text with
  | none => rfl
  | some parts =>
    obtain ⟨earlier, later⟩ := parts
    rw [eq_append_of_splitLast found] at absent
    simp [inNeedle] at absent

/-- The last field of a text that ends with a marked one is in that. -/
theorem lastField_append_of_mem {mark : Char} {b : List Char} (member : mark ∈ b) (a : List Char) :
    lastField (· == mark) (a ++ b) = lastField (· == mark) b := by
  obtain ⟨earlier, later, rfl, absent⟩ := eq_append_last_of_mem member
  have none : ∀ x ∈ later, (x == mark) = false := fun x inside => by
    rw [beq_eq_false_iff_ne]
    exact fun same => absent (same ▸ inside)
  have last (front : List Char) : lastField (· == mark) (front ++ mark :: later) = later :=
    lastField_append (beq_self_eq_true mark) none
  rw [← List.append_assoc, last, last]

theorem lastField_append_of_not_mem {mark : Char} {b : List Char} (absent : mark ∉ b) (a : List Char) :
    lastField (· == mark) (a ++ b) = lastField (· == mark) a ++ b := by
  have passes : ∀ x ∈ b.reverse, (!(x == mark)) = true := fun x inside => by
    rw [Bool.not_eq_true', beq_eq_false_iff_ne]
    exact fun same => absent (same ▸ List.mem_reverse.mp inside)
  unfold lastField
  rw [List.reverse_append, List.takeWhile_append_of_pos passes, List.reverse_append, List.reverse_reverse]

/-- The last occurrence is not changed by a later text that holds the first letter of what is looked for
only once and does not go on as it does. -/
theorem splitLast_append_cons {mark : Char} {more rest : List Char} (once : mark ∉ more) (absent : mark ∉ rest)
    (other : ¬ more <+: rest) (text : List Char) :
    splitLast (mark :: more) (text ++ mark :: rest) =
      (splitLast (mark :: more) text).map fun (earlier, later) => (earlier, later ++ mark :: rest) := by
  have apart : ¬ (mark :: more).isPrefixOf (mark :: rest) = true := by
    simp [List.isPrefixOf_iff_prefix, other]
  induction text with
  | nil =>
    simp [splitLast, splitLast_eq_none List.mem_cons_self absent, apart]
  | cons c text ih =>
    rw [List.cons_append, splitLast, ih, splitLast]
    cases splitLast (mark :: more) text with
    | some parts => rfl
    | none =>
      have within : (mark :: more).isPrefixOf (c :: (text ++ mark :: rest)) =
          (mark :: more).isPrefixOf (c :: text) := by
        rw [Bool.eq_iff_iff, List.isPrefixOf_iff_prefix, List.isPrefixOf_iff_prefix]
        constructor
        · rintro ⟨behind, whole⟩
          obtain ⟨rfl, later⟩ := List.cons.inj whole
          rcases List.append_eq_append_iff.mp later with ⟨front, first, -⟩ | ⟨back, first, second⟩
          · exact ⟨front, by simp [first]⟩
          · cases back with
            | nil => exact ⟨[], by simp [first]⟩
            | cons d back =>
              obtain ⟨rfl, -⟩ := List.cons.inj second
              exact absurd (by simp [first]) once
        · rintro ⟨behind, whole⟩
          exact ⟨behind ++ mark :: rest, by rw [← List.append_assoc, whole, List.cons_append]⟩
      simp only [Option.map_none, within]
      split
      · next here =>
        have long : more.length + 1 ≤ (c :: text).length := by
          simpa using (List.isPrefixOf_iff_prefix.mp here).length_le
        simp only [Option.map_some, Option.some.injEq, Prod.mk.injEq, true_and]
        rw [← List.cons_append, List.drop_append_of_le_length (by simpa using long)]
      · rfl

/-- A later text can only add to the occurrences. -/
theorem lastOffset_append_le {needle text : List Char} {n : Nat} (found : lastOffset needle text = some n)
    (rest : List Char) : ∃ later, lastOffset needle (text ++ rest) = some later ∧ n ≤ later := by
  induction text generalizing n with
  | nil => simp [lastOffset, splitLast] at found
  | cons c text ih =>
    simp only [lastOffset, splitLast, List.cons_append] at found ih ⊢
    cases inText : splitLast needle text with
    | some parts =>
      obtain ⟨later, within, atLeast⟩ := ih (by rw [inText]; rfl)
      obtain ⟨⟨earlier, behind⟩, split, rfl⟩ := Option.map_eq_some_iff.mp within
      simp only [inText, Option.map_some, Option.some.injEq, utf8Length_cons] at found
      refine ⟨c.utf8Size + utf8Length earlier, by rw [split]; rfl, ?_⟩
      rw [← found]
      exact Nat.add_le_add_left atLeast _
    | none =>
      simp only [inText] at found
      split at found
      · next here =>
        simp only [Option.map_some, Option.some.injEq, utf8Length_nil] at found
        have still : needle.isPrefixOf (c :: (text ++ rest)) = true := by
          rw [List.isPrefixOf_iff_prefix] at here ⊢
          exact here.trans (List.prefix_append (c :: text) rest)
        cases splitLast needle (text ++ rest) with
        | some parts => exact ⟨_, rfl, by omega⟩
        | none => exact ⟨_, by rw [if_pos still]; rfl, by omega⟩
      · simp at found

theorem lastOffset_cons (needle : List Char) (c : Char) (cs : List Char) :
    lastOffset needle (c :: cs) =
      ((lastOffset needle cs).map (c.utf8Size + ·)).or (if needle.isPrefixOf (c :: cs) then some 0 else none) := by
  unfold lastOffset
  rw [splitLast]
  cases splitLast needle cs with
  | some parts => rfl
  | none =>
    simp only [Option.map_none, Option.none_or]
    split <;> rfl

/-- An occurrence in the later text is the last one. -/
theorem lastOffset_append_of_some {needle b : List Char} {n : Nat} (found : lastOffset needle b = some n)
    (a : List Char) : lastOffset needle (a ++ b) = some (utf8Length a + n) := by
  induction a with
  | nil => simpa using found
  | cons c a ih =>
    rw [List.cons_append, lastOffset_cons, ih, Option.map_some, Option.some_or, utf8Length_cons, Nat.add_assoc]

/-- Without one in the later text, the last one begins in the earlier text. -/
theorem lt_of_lastOffset_append {needle a b : List Char} {n : Nat} (absent : lastOffset needle b = none)
    (found : lastOffset needle (a ++ b) = some n) : n < utf8Length a := by
  induction a generalizing n with
  | nil => simp [absent] at found
  | cons c a ih =>
    have size := c.utf8Size_pos
    rw [List.cons_append, lastOffset_cons] at found
    rw [utf8Length_cons]
    rcases Option.or_eq_some_iff.mp found with behind | ⟨-, here⟩
    · obtain ⟨m, inner, rfl⟩ := Option.map_eq_some_iff.mp behind
      have := ih inner
      omega
    · split at here
      · obtain rfl := Option.some.inj here
        omega
      · simp at here

theorem prefix_append_cons_iff {needle a b : List Char} {c : Char} (apart : c ∉ needle) :
    needle <+: a ++ c :: b ↔ needle <+: a := by
  constructor
  · rintro ⟨rest, whole⟩
    obtain ⟨front, rfl, -⟩ := eq_append_of_not_mem_left whole apart
    exact List.prefix_append needle front
  · exact fun begins => begins.trans (List.prefix_append a (c :: b))

/-- A character that is no part of what is looked for keeps the occurrences on its two sides apart. -/
theorem lastOffset_append_cons {needle b : List Char} {c : Char} (apart : c ∉ needle) (nonempty : needle ≠ [])
    (absent : lastOffset needle b = none) (a : List Char) :
    lastOffset needle (a ++ c :: b) = lastOffset needle a := by
  have begins (front : List Char) : needle.isPrefixOf (front ++ c :: b) = needle.isPrefixOf front := by
    rw [Bool.eq_iff_iff, List.isPrefixOf_iff_prefix, List.isPrefixOf_iff_prefix, prefix_append_cons_iff apart]
  induction a with
  | nil =>
    have none : needle.isPrefixOf [] = false := by
      cases needle with
      | nil => exact absurd rfl nonempty
      | cons => rfl
    rw [List.nil_append, lastOffset_cons, absent, ← List.nil_append (c :: b), begins, none]
    rfl
  | cons d a ih => rw [List.cons_append, lastOffset_cons, lastOffset_cons, ih, ← List.cons_append, begins]

end Typeahead.Text
