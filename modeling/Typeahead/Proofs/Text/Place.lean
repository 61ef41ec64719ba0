import Typeahead.Text.Place

namespace Typeahead.Text

theorem breakFirst_append {p : Char → Bool} {earlier later : List Char} {c : Char}
    (none : ∀ x ∈ earlier, p x = false) (here : p c = true) :
    breakFirst p (earlier ++ c :: later) = some (earlier, c, later) := by
  have passes : ∀ x ∈ earlier, (!p x) = true := fun x inside => by simp [none x inside]
  unfold breakFirst
  rw [List.dropWhile_append_of_pos passes, List.takeWhile_append_of_pos passes]
  simp [here]

theorem breakLast_append {p : Char → Bool} {earlier later : List Char} {c : Char}
    (here : p c = true) (none : ∀ x ∈ later, p x = false) :
    breakLast p (earlier ++ c :: later) = some (earlier, c, later) := by
  have reversed : (earlier ++ c :: later).reverse = later.reverse ++ c :: earlier.reverse := by simp
  have absent : ∀ x ∈ later.reverse, p x = false := fun x inside => none x (List.mem_reverse.mp inside)
  unfold breakLast
  rw [reversed, breakFirst_append absent here]
  simp

theorem breakFirst_eq_none {p : Char → Bool} {cs : List Char} (absent : ∀ x ∈ cs, p x = false) :
    breakFirst p cs = none := by
  have passes : ∀ x ∈ cs, (!p x) = true := fun x inside => by simp [absent x inside]
  have nothing : (cs ++ []).dropWhile (!p ·) = [].dropWhile (!p ·) := List.dropWhile_append_of_pos passes
  rw [List.append_nil, List.dropWhile_nil] at nothing
  simp [breakFirst, nothing]

theorem breakLast_eq_none {p : Char → Bool} {cs : List Char} (absent : ∀ x ∈ cs, p x = false) :
    breakLast p cs = none := by
  simp [breakLast, breakFirst_eq_none fun x inside => absent x (List.mem_reverse.mp inside)]

/-- The last field of a text is what follows its last mark. -/
theorem lastField_append {p : Char → Bool} {earlier later : List Char} {c : Char}
    (here : p c = true) (none : ∀ x ∈ later, p x = false) : lastField p (earlier ++ c :: later) = later := by
  have passes : ∀ x ∈ later.reverse, (!p x) = true := by
    intro x inside
    simp [none x (List.mem_reverse.mp inside)]
  have reversed : (earlier ++ c :: later).reverse = later.reverse ++ c :: earlier.reverse := by simp
  unfold lastField
  rw [reversed, List.takeWhile_append_of_pos passes]
  simp [here]

theorem eq_append_of_dropStart? {start cs rest : List Char} (h : dropStart? start cs = some rest) :
    cs = start ++ rest := by
  unfold dropStart? at h
  split at h
  · next starts =>
    obtain ⟨later, rfl⟩ := List.isPrefixOf_iff_prefix.mp starts
    simp only [List.drop_left, Option.some.injEq] at h
    rw [h]
  · simp at h

theorem offset_add_rest {text : List Char} {p : Place} (inText : p ∈ places text) :
    p.offset + utf8Length p.rest = utf8Length text := by
  obtain ⟨split, offset⟩ := mem_places inText
  rw [offset, ← utf8Length_append, ← split]

/-- A word stands where it is found. -/
theorem exists_rest_of_mem_wordPlaces {word text : List Char} {p : Place} (member : p ∈ wordPlaces word text) :
    p ∈ places text ∧ ∃ rest, p.rest = word ++ rest := by
  obtain ⟨inText, here⟩ := List.mem_filter.mp member
  simp only [Place.hasWord, Bool.and_eq_true, List.isPrefixOf_iff_prefix] at here
  obtain ⟨rest, found⟩ := here.1.1
  exact ⟨inText, rest, found.symm⟩

end Typeahead.Text
