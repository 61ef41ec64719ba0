import Typeahead.Markup.Target
import Typeahead.Proofs.Text.Blanks

namespace Typeahead.Markup

open Text

/-- A name of a tag or of an attribute. -/
structure Name where
  text : List Char
  nonempty : text ≠ []
  named : ∀ c ∈ text, isNameChar c = true

theorem not_isNameChar_of_isBlank {c : Char} (blank : isBlank c = true) : isNameChar c = false := by
  have plain : ∀ n ∈ blankCodes, isNameChar (Char.ofNat n) = false := by decide +kernel
  exact forall_blank (p := fun c => isNameChar c = false) plain c blank

theorem not_isBlank_of_isNameChar {c : Char} (named : isNameChar c = true) : isBlank c = false := by
  rw [Bool.eq_false_iff]
  intro blank
  rw [not_isNameChar_of_isBlank blank] at named
  exact Bool.noConfusion named

/-- A mark does not stand in a text of letters. -/
theorem not_mem_of_named {text : List Char} {mark : Char} (named : ∀ c ∈ text, isNameChar c = true)
    (plain : isNameChar mark = false) : mark ∉ text := by
  intro member
  rw [named mark member] at plain
  exact Bool.noConfusion plain

namespace Name

/-- The name as it is written. -/
def string (name : Name) : String := String.ofList name.text

/-- The name in lower case. -/
def key (name : Name) : String := String.ofList (name.text.map Char.toLower)

/-- The first letter tells a name from a declaration and from an end tag. -/
theorem exists_eq_cons (name : Name) :
    ∃ c cs, name.text = c :: cs ∧ isDeclarationStart c = false ∧ c ≠ '/' := by
  obtain ⟨c, cs, split⟩ := List.exists_cons_of_ne_nil name.nonempty
  have letter : isNameChar c = true := name.named c (split ▸ List.mem_cons_self)
  refine ⟨c, cs, split, ?_, by rintro rfl; exact Bool.noConfusion letter⟩
  rw [Bool.eq_false_iff]
  intro mark
  simp only [isDeclarationStart, Bool.or_eq_true, beq_iff_eq] at mark
  rcases mark with (rfl | rfl) | rfl <;> exact Bool.noConfusion letter

theorem exists_eq_concat (name : Name) : ∃ cs c, name.text = cs ++ [c] ∧ isNameChar c = true := by
  obtain ⟨cs, c, split⟩ := List.eq_nil_or_concat name.text |>.resolve_left name.nonempty
  exact ⟨cs, c, by simpa using split, name.named c (by simp [split])⟩

/-- A text that ends in a name has no blanks at its end. -/
theorem trimEnd_append (front : List Char) (name : Name) : trimEnd (front ++ name.text) = front ++ name.text := by
  obtain ⟨start, c, split, named⟩ := name.exists_eq_concat
  rw [split, ← List.append_assoc]
  exact trimEnd_concat _ (not_isBlank_of_isNameChar named)

end Name

end Typeahead.Markup
