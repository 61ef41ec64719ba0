import Typeahead.Proofs.Text.Boundary
import Typeahead.Source.TypeRegion

namespace Typeahead.Source

open Text

/-- The bytes of one character. -/
def byteChars (c : Char) : List Char := (String.utf8EncodeChar c).map fun b => Char.ofNat b.toNat

@[simp] theorem bytesAsChars_nil : bytesAsChars [] = [] := rfl

@[simp] theorem bytesAsChars_cons (c : Char) (cs : List Char) :
    bytesAsChars (c :: cs) = byteChars c ++ bytesAsChars cs := rfl

@[simp] theorem bytesAsChars_append (a b : List Char) :
    bytesAsChars (a ++ b) = bytesAsChars a ++ bytesAsChars b := List.flatMap_append

theorem length_byteChars (c : Char) : (byteChars c).length = c.utf8Size := by
  rw [byteChars, List.length_map, String.length_utf8EncodeChar]

/-- A byte offset counts the bytes before it. -/
theorem length_bytesAsChars (cs : List Char) : (bytesAsChars cs).length = utf8Length cs := by
  induction cs with
  | nil => rfl
  | cons c cs ih => rw [bytesAsChars_cons, List.length_append, length_byteChars, ih, utf8Length_cons]

/-- A character of ASCII is its own byte. -/
theorem byteChars_of_ascii {c : Char} (ascii : c.toNat < 0x80) : byteChars c = [c] := by
  have small : c.val.toNat ≤ 127 := by
    change c.toNat ≤ 127
    omega
  have value : (UInt8.ofNat c.val.toNat).toNat = c.toNat := by
    rw [UInt8.toNat_ofNat']
    change c.toNat % 256 = c.toNat
    omega
  simp only [byteChars, String.utf8EncodeChar, if_pos small, List.map_cons, List.map_nil, value]
  rw [Char.ofNat_toNat]

theorem utf8Size_of_ascii {c : Char} (ascii : c.toNat < 0x80) : c.utf8Size = 1 := by
  rw [← length_byteChars, byteChars_of_ascii ascii, List.length_singleton]

theorem bytesAsChars_cons_of_ascii {c : Char} (ascii : c.toNat < 0x80) (cs : List Char) :
    bytesAsChars (c :: cs) = c :: bytesAsChars cs := by
  rw [bytesAsChars_cons, byteChars_of_ascii ascii, List.singleton_append]

theorem toNat_of_mem_utf8EncodeChar {c : Char} {b : UInt8} (wide : 0x80 ≤ c.toNat)
    (member : b ∈ String.utf8EncodeChar c) : 0x80 ≤ b.toNat := by
  have large : ¬ c.val.toNat ≤ 127 := by
    change ¬ c.toNat ≤ 127
    omega
  simp only [String.utf8EncodeChar, if_neg large] at member
  split at member
  · simp only [List.mem_cons, List.not_mem_nil, or_false] at member
    rcases member with rfl | rfl <;> rw [UInt8.toNat_ofNat'] <;> omega
  · split at member
    · simp only [List.mem_cons, List.not_mem_nil, or_false] at member
      rcases member with rfl | rfl | rfl <;> rw [UInt8.toNat_ofNat'] <;> omega
    · simp only [List.mem_cons, List.not_mem_nil, or_false] at member
      rcases member with rfl | rfl | rfl | rfl <;> rw [UInt8.toNat_ofNat'] <;> omega

theorem toNat_ofNat_byte (b : UInt8) : (Char.ofNat b.toNat).toNat = b.toNat := by
  have valid : b.toNat.isValidChar := Or.inl (by have := b.toNat_lt; omega)
  rw [Char.ofNat, dif_pos valid]
  rfl

/-- No byte of a character outside ASCII is a character of ASCII. -/
theorem toNat_of_mem_byteChars {c b : Char} (wide : 0x80 ≤ c.toNat) (member : b ∈ byteChars c) :
    0x80 ≤ b.toNat := by
  obtain ⟨byte, encoded, rfl⟩ := List.mem_map.mp member
  rw [toNat_ofNat_byte]
  exact toNat_of_mem_utf8EncodeChar wide encoded

theorem byteChars_ne_nil (c : Char) : byteChars c ≠ [] := by
  intro none
  have size := length_byteChars c
  have := c.utf8Size_pos
  rw [none, List.length_nil] at size
  omega

/-- The test has the same answer for a character and for each of its bytes. -/
def ReadsBytes (p : Char → Bool) : Prop := ∀ c, ∀ b ∈ byteChars c, p b = p c

/-- A test reads bytes when it has one answer for everything outside ASCII. -/
theorem readsBytes {p : Char → Bool} (answer : Bool)
    (wide : ∀ c : Char, 0x80 ≤ c.toNat → p c = answer) : ReadsBytes p := by
  intro c b member
  by_cases ascii : c.toNat < 0x80
  · rw [byteChars_of_ascii ascii, List.mem_singleton] at member
    rw [member]
  · have outside : 0x80 ≤ c.toNat := by omega
    rw [wide c outside, wide b (toNat_of_mem_byteChars outside member)]

theorem readsBytes_isIdentifierChar : ReadsBytes isIdentifierChar :=
  readsBytes true fun c wide => by simp [isIdentifierChar, wide]

/-- Comparing with one character of ASCII. -/
theorem readsBytes_eq (mark : Char) (ascii : mark.toNat < 0x80) : ReadsBytes (· == mark) := by
  refine readsBytes false fun c wide => ?_
  have other : c ≠ mark := by
    rintro rfl
    omega
  simpa using other

theorem readsBytes_ne (mark : Char) (ascii : mark.toNat < 0x80) :
    ReadsBytes fun c => decide (c ≠ mark) := by
  refine readsBytes true fun c wide => ?_
  have other : c ≠ mark := by
    rintro rfl
    omega
  simpa using other

theorem ReadsBytes.head?_any {p : Char → Bool} (reads : ReadsBytes p) (cs : List Char) :
    (bytesAsChars cs).head?.any p = cs.head?.any p := by
  cases cs with
  | nil => rfl
  | cons c cs =>
    obtain ⟨b, others, bytes⟩ := List.exists_cons_of_ne_nil (byteChars_ne_nil c)
    have same := reads c b (by simp [bytes])
    simp [bytes, same]

theorem takeWhile_bytesAsChars {p : Char → Bool} (reads : ReadsBytes p) (cs : List Char) :
    (bytesAsChars cs).takeWhile p = bytesAsChars (cs.takeWhile p) := by
  induction cs with
  | nil => rfl
  | cons c cs ih =>
    rw [bytesAsChars_cons]
    cases here : p c with
    | true =>
      have all : ∀ b ∈ byteChars c, p b = true := fun b member => (reads c b member).trans here
      rw [List.takeWhile_append_of_pos all, ih, List.takeWhile_cons_of_pos here, bytesAsChars_cons]
    | false =>
      obtain ⟨b, others, bytes⟩ := List.exists_cons_of_ne_nil (byteChars_ne_nil c)
      have first : p b = false := (reads c b (by simp [bytes])).trans here
      simp [bytes, first, here]

theorem dropWhile_bytesAsChars {p : Char → Bool} (reads : ReadsBytes p) (cs : List Char) :
    (bytesAsChars cs).dropWhile p = bytesAsChars (cs.dropWhile p) := by
  have whole : bytesAsChars (cs.takeWhile p) ++ (bytesAsChars cs).dropWhile p =
      bytesAsChars (cs.takeWhile p) ++ bytesAsChars (cs.dropWhile p) := by
    rw [← takeWhile_bytesAsChars reads, List.takeWhile_append_dropWhile, takeWhile_bytesAsChars reads,
      ← bytesAsChars_append, List.takeWhile_append_dropWhile]
  exact List.append_cancel_left whole

end Typeahead.Source
