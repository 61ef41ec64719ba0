import Typeahead.Catalog.Resolution
import Typeahead.Proofs.Source.ByteTokens
import Typeahead.Source.Context
import Typeahead.Text.Dotted

namespace Typeahead

open Text Source Catalog

namespace Text

theorem utf8Size_toLower (c : Char) : c.toLower.utf8Size = c.utf8Size := by
  unfold Char.toLower
  split
  · next upper =>
    obtain ⟨lower, bound⟩ := upper
    have atLeast : 65 ≤ c.val.toNat := UInt32.le_iff_toNat_le.mp lower
    have atMost : c.val.toNat ≤ 90 := UInt32.le_iff_toNat_le.mp bound
    have sum : (c.val + ('a'.val - 'A'.val)).toNat < 0x80 := by
      rw [UInt32.toNat_add]
      change (c.val.toNat + 32) % 2 ^ 32 < 128
      omega
    have ascii : c.toNat < 0x80 := by
      change c.val.toNat < 128
      omega
    rw [utf8Size_of_ascii ascii]
    exact utf8Size_of_ascii sum
  · rfl

theorem utf8Length_map_toLower (cs : List Char) : utf8Length (cs.map Char.toLower) = utf8Length cs := by
  induction cs with
  | nil => rfl
  | cons c cs ih => rw [List.map_cons, utf8Length_cons, utf8Length_cons, utf8Size_toLower, ih]

/-- A name begins with what is typed when its first bytes, as many as were typed, end between two
characters and are the typed text. -/
theorem startsWithIgnoringCase_iff (name typed : List Char) :
    startsWithIgnoringCase name typed = true ↔
      ∃ piece, slice 0 (utf8Length typed) name = .ok piece ∧ equalIgnoringCase piece typed = true := by
  simp only [startsWithIgnoringCase, equalIgnoringCase, beq_iff_eq]
  rw [List.isPrefixOf_iff_prefix]
  constructor
  · rintro ⟨rest, split⟩
    obtain ⟨piece, later, rfl, same, -⟩ := List.map_eq_append_iff.mp split.symm
    have size := congrArg utf8Length same
    rw [utf8Length_map_toLower, utf8Length_map_toLower] at size
    exact ⟨piece, slice_of_append [] _ rfl rfl (by rw [Nat.zero_add, size]), same⟩
  · rintro ⟨piece, taken, same⟩
    obtain ⟨before, rest, rfl, none, -⟩ := slice_eq_ok_iff.mp taken
    have empty : before = [] := by
      cases before with
      | nil => rfl
      | cons c before =>
        have := c.utf8Size_pos
        rw [utf8Length_cons] at none
        omega
    subst empty
    exact ⟨rest.map Char.toLower, by rw [← same]; simp⟩

end Text

/-- Each argument of a list is a piece of the text; `current` is the start of the first one, backwards. -/
theorem TypeName.slice_of_mem_argumentTexts {depth : Nat} (front : List Char) {current inside argument : List Char}
    (member : argument ∈ TypeName.argumentTexts depth current inside) :
    ∃ start stop, slice start stop (front ++ current.reverse ++ inside) = .ok argument := by
  induction inside generalizing depth front current with
  | nil => simp [TypeName.argumentTexts] at member
  | cons c cs ih =>
    have further {depth : Nat} (member : argument ∈ TypeName.argumentTexts depth (c :: current) cs) :
        ∃ start stop, slice start stop (front ++ current.reverse ++ c :: cs) = .ok argument := by
      have taken := ih front member
      simpa using taken
    have ended : ∃ start stop, slice start stop (front ++ current.reverse ++ c :: cs) = .ok current.reverse :=
      ⟨_, _, slice_append front current.reverse (c :: cs)⟩
    simp only [TypeName.argumentTexts] at member
    split at member
    · exact further member
    · split at member
      · split at member
        · rw [List.mem_singleton.mp member]
          exact ended
        · exact further member
      · split at member
        · rcases List.mem_cons.mp member with rfl | later
          · exact ended
          · have taken := ih (front ++ current.reverse ++ [c]) later
            simpa using taken
        · exact further member

/-- A dot read as the separator of a nested type stands where it stood in the name. -/
theorem slice_of_mem_nestings {before later nested : List Char}
    (member : nested ∈ Catalog.nestings later before) :
    ∃ front back rest, nested = front ++ '+' :: back ∧ before.reverse = front ++ '.' :: rest := by
  induction before generalizing later with
  | nil => simp [Catalog.nestings] at member
  | cons c before ih =>
    have further {later : List Char} (member : nested ∈ Catalog.nestings later before) :
        ∃ front back rest, nested = front ++ '+' :: back ∧ (c :: before).reverse = front ++ '.' :: rest := by
      obtain ⟨front, back, rest, shape, split⟩ := ih member
      exact ⟨front, back, rest ++ [c], shape, by simp [split]⟩
    simp only [Catalog.nestings] at member
    split at member
    · next dot =>
      rcases List.mem_cons.mp member with rfl | more
      · exact ⟨before.reverse, later, [], rfl, by simp [dot]⟩
      · exact further more
    · exact further member

/-- What is taken out of a name. -/
structure NameSlices (name : List Char) : Prop where
  /-- The head, which may be an alias, and the rest. -/
  head : slice 0 (utf8Length (name.takeWhile isIdentifierChar)) name = .ok (name.takeWhile isIdentifierChar)
  behindHead : slice (utf8Length (name.takeWhile isIdentifierChar)) (utf8Length name) name =
    .ok (name.drop (name.takeWhile isIdentifierChar).length)
  /-- The head is the bytes that are part of a name. -/
  headInBytes : ((bytesAsChars name).takeWhile isIdentifierChar).length =
    utf8Length (name.takeWhile isIdentifierChar)
  /-- The element of an array. -/
  element : ∀ element, TypeName.arrayElement? ⟨String.ofList name⟩ = some element →
    ∃ stop piece, slice 0 stop name = .ok piece ∧ element.text = String.ofList (trimEnd piece)
  /-- The arguments behind the first angle bracket, and the text that is searched for them. -/
  argument : ∀ front bracket inside, breakFirst (· == '<') name = some (front, bracket, inside) →
    slice (utf8Length front) (utf8Length name) name = .ok (bracket :: inside) ∧
      ∀ argument ∈ TypeName.argumentTexts 1 [] inside, ∃ start stop, slice start stop name = .ok argument
  /-- The leading parts. -/
  leading : ∀ part ∈ dottedPrefixes name, slice 0 (utf8Length part) name = .ok part
  /-- The dots that are read as separators of nested types. -/
  nesting : ∀ nested ∈ Catalog.nestings [] name.reverse, ∃ dot, slice dot (dot + 1) name = .ok ['.'] ∧
    slice dot (dot + 1) nested = .ok ['+']
  /-- The start of the name, as long as what is typed. -/
  typed : ∀ typed, startsWithIgnoringCase name typed = true ↔
    ∃ piece, slice 0 (utf8Length typed) name = .ok piece ∧ equalIgnoringCase piece typed = true

theorem nameSlices (name : List Char) : NameSlices name where
  head := slice_of_append [] _ (List.takeWhile_append_dropWhile).symm rfl (Nat.zero_add _)
  behindHead := by
    have split := List.takeWhile_append_dropWhile (p := isIdentifierChar) (l := name)
    have rest : name.drop (name.takeWhile isIdentifierChar).length = name.dropWhile isIdentifierChar := by
      conv => lhs; arg 2; rw [← split]
      exact List.drop_left
    rw [rest]
    refine slice_of_append (name.takeWhile isIdentifierChar) [] ?_ rfl ?_
    · rw [List.append_nil, split]
    · rw [← utf8Length_append, split]
  headInBytes := by rw [takeWhile_bytesAsChars readsBytes_isIdentifierChar, length_bytesAsChars]
  element := by
    intro element found
    unfold TypeName.arrayElement? at found
    split at found
    · rw [String.toList_ofList] at found
      obtain ⟨⟨piece, bracket, rank⟩, split, rfl⟩ := Option.map_eq_some_iff.mp found
      obtain ⟨whole, -⟩ := eq_append_of_breakLast split
      exact ⟨_, piece, slice_of_append [] _ whole rfl (Nat.zero_add _), rfl⟩
    · simp at found
  argument := by
    intro front bracket inside found
    obtain ⟨whole, -⟩ := eq_append_of_breakFirst found
    refine ⟨slice_of_append front [] (by rw [List.append_nil, whole]) rfl ?_, fun argument member => ?_⟩
    · rw [← utf8Length_append, whole]
    · have taken := TypeName.slice_of_mem_argumentTexts (front ++ [bracket]) member
      rw [whole]
      simpa using taken
  leading := by
    intro part member
    obtain ⟨rest, whole, -⟩ := mem_dottedPrefixes.mp member
    exact slice_of_append [] _ whole rfl (Nat.zero_add _)
  nesting := by
    intro nested member
    obtain ⟨front, back, rest, shape, split⟩ := slice_of_mem_nestings member
    rw [List.reverse_reverse] at split
    refine ⟨utf8Length front, ?_, ?_⟩
    · exact slice_of_append _ rest (by simp [split]) rfl rfl
    · exact slice_of_append _ back (by simp [shape]) rfl rfl
  typed := startsWithIgnoringCase_iff name

end Typeahead
