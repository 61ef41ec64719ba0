import Typeahead.Proofs.Text.Boundary
import Typeahead.Source.Target

namespace Typeahead.Source

open Text

/-- A step backwards: what was taken stands at the end of what there was to read, and it does not begin
with a space. -/
structure ReadBack (taken cs taken' rest : List Char) : Prop where
  whole : rest.reverse ++ taken' = cs.reverse ++ taken
  beginsInCode : taken'.head? ≠ some ' '

theorem readBack_of_groupBack {opening closing : Char} {depth : Nat} {taken cs taken' rest : List Char}
    (bracket : opening ≠ ' ') (read : groupBack opening closing depth taken cs = some (taken', rest)) :
    ReadBack taken cs taken' rest := by
  induction cs generalizing depth taken with
  | nil => simp [groupBack] at read
  | cons c cs ih =>
    have further {depth : Nat} (read : groupBack opening closing depth (c :: taken) cs = some (taken', rest)) :
        ReadBack taken (c :: cs) taken' rest := by
      obtain ⟨whole, begins⟩ := ih read
      exact ⟨by simpa using whole, begins⟩
    simp only [groupBack] at read
    split at read
    · exact further read
    · split at read
      · next isOpening =>
        split at read
        · simp only [Option.some.injEq, Prod.mk.injEq] at read
          obtain ⟨rfl, rfl⟩ := read
          exact ⟨by simp, by simpa [isOpening] using bracket⟩
        · exact further read
      · split at read
        · simp at read
        · exact further read

theorem readBack_of_typeArgumentsBack {depth : Nat} {taken cs taken' rest : List Char}
    (read : typeArgumentsBack depth taken cs = some (taken', rest)) : ReadBack taken cs taken' rest := by
  induction cs generalizing depth taken with
  | nil => simp [typeArgumentsBack] at read
  | cons c cs ih =>
    have further {depth : Nat} (read : typeArgumentsBack depth (c :: taken) cs = some (taken', rest)) :
        ReadBack taken (c :: cs) taken' rest := by
      obtain ⟨whole, begins⟩ := ih read
      exact ⟨by simpa using whole, begins⟩
    simp only [typeArgumentsBack] at read
    split at read
    · exact further read
    · split at read
      · next isOpening =>
        split at read
        · split at read
          · simp only [Option.some.injEq, Prod.mk.injEq] at read
            obtain ⟨rfl, rfl⟩ := read
            exact ⟨by simp, by simp [isOpening]⟩
          · simp at read
        · exact further read
      · split at read
        · exact further read
        · simp at read

theorem readBack_of_stepBack {taken cs taken' rest : List Char}
    (read : stepBack taken cs = some (taken', rest)) : ReadBack taken cs taken' rest := by
  unfold stepBack at read
  split at read
  · simp at read
  · next c cs =>
    split at read
    · next named =>
      simp only [Option.some.injEq, Prod.mk.injEq] at read
      obtain ⟨rfl, rfl⟩ := read
      refine ⟨by simp, ?_⟩
      rintro ⟨rfl⟩
      simp [isIdentifierChar] at named
    · split at read
      · exact readBack_of_groupBack (by decide) read
      · split at read
        · exact readBack_of_groupBack (by decide) read
        · split at read
          · exact readBack_of_typeArgumentsBack read
          · simp at read

/-- The expression stands at the end of what there was to read, and it does not begin with a space. -/
theorem entityBack_readBack (taken cs : List Char) (begins : taken.head? ≠ some ' ') :
    ∃ rest, ReadBack taken cs (entityBack taken cs) rest := by
  fun_induction entityBack taken cs with
  | case1 taken cs none => exact ⟨cs, rfl, begins⟩
  | case2 taken cs taken' rest step ih =>
    have one := readBack_of_stepBack step
    obtain ⟨left, more⟩ := ih one.beginsInCode
    exact ⟨left, more.whole.trans one.whole, more.beginsInCode⟩

theorem eq_append_of_splitLastDot {depth : Int} {cs earlier later : List Char}
    (found : splitLastDot depth cs = some (earlier, later)) : cs = earlier ++ '.' :: later := by
  induction cs generalizing depth earlier later with
  | nil => simp [splitLastDot] at found
  | cons c cs ih =>
    simp only [splitLastDot] at found
    split at found
    · next front back inner =>
      simp only [Option.some.injEq, Prod.mk.injEq] at found
      obtain ⟨rfl, rfl⟩ := found
      rw [ih inner, List.cons_append]
    · split at found
      · next dot =>
        simp only [Option.some.injEq, Prod.mk.injEq] at found
        obtain ⟨rfl, rfl⟩ := found
        rw [dot.1, List.nil_append]
      · simp at found

/-- The parts of a target: the chain and the last part with a dot between them, or the last part alone. -/
theorem Target.entity_eq (text : List Char) :
    (Target.of text).entity.toList =
        (Target.of text).chain.toList ++ '.' :: (Target.of text).lookAhead.toList ∨
      (Target.of text).chain = "" ∧ (Target.of text).entity = (Target.of text).lookAhead := by
  simp only [Target.of]
  split
  · next found => exact .inl (by simpa using eq_append_of_splitLastDot found)
  · exact .inr ⟨rfl, rfl⟩

theorem Target.entity_of (text : List Char) :
    (Target.of text).entity = String.ofList (entityBack [] text.reverse) := by
  simp only [Target.of]
  split <;> rfl

theorem Target.eq_append_entity (text : List Char) :
    ∃ front, text = front ++ (Target.of text).entity.toList ∧
      (Target.of text).entity.toList.head? ≠ some ' ' := by
  obtain ⟨rest, whole, begins⟩ := entityBack_readBack [] text.reverse (by simp)
  rw [List.append_nil, List.reverse_reverse] at whole
  rw [Target.entity_of, String.toList_ofList]
  exact ⟨rest.reverse, whole.symm, begins⟩

/-- What a chosen item replaces stands at the end of the text, and where it begins no blank stands on
both sides. -/
theorem Target.eq_append_lookAhead (text : List Char) :
    ∃ front, text = front ++ (Target.of text).lookAhead.toList ∧
      (front.getLast? = some '.' ∨ (Target.of text).lookAhead.toList.head? ≠ some ' ') := by
  obtain ⟨front, whole, begins⟩ := Target.eq_append_entity text
  rcases Target.entity_eq text with split | ⟨-, same⟩
  · refine ⟨front ++ (Target.of text).chain.toList ++ ['.'], ?_, .inl (by simp)⟩
    calc
      text = front ++ (Target.of text).entity.toList := whole
      _ = front ++ ((Target.of text).chain.toList ++ '.' :: (Target.of text).lookAhead.toList) := by rw [split]
      _ = _ := by simp
  · exact ⟨front, by rw [← same]; exact whole, .inr (same ▸ begins)⟩

end Typeahead.Source
