import Typeahead.Proofs.Source.Blanking
import Typeahead.Proofs.Source.ByteScan

namespace Typeahead.Source

open Text

/-- The byte at an offset is one of the region. -/
def Region.covers (r : Region) (offset : Nat) : Prop := r.start ≤ offset ∧ offset < r.stop

instance (r : Region) (offset : Nat) : Decidable (r.covers offset) :=
  inferInstanceAs (Decidable (r.start ≤ offset ∧ offset < r.stop))

/-- Sources of one length with the same comments and literals, which differ inside these alone and have
their line breaks at the same offsets. -/
structure AlikeOutside (source other : List Char) : Prop where
  length : utf8Length source = utf8Length other
  sameRegions : regions source = regions other
  code : ∀ i < utf8Length source, (∀ r ∈ regions source, ¬ r.covers i) →
    (bytesAsChars source)[i]? = (bytesAsChars other)[i]?
  lineBreaks : ∀ i < utf8Length source, ∀ lineBreak ∈ ['\n', '\r'],
    (bytesAsChars source)[i]? = some lineBreak ↔ (bytesAsChars other)[i]? = some lineBreak

/-- Sources whose comments and literals are known are compared byte by byte. -/
theorem AlikeOutside.of_regions {source other : List Char} {found : List Region} (ofSource : regions source = found)
    (ofOther : regions other = found) (length : utf8Length source = utf8Length other)
    (code : ∀ i < utf8Length source, (∀ r ∈ found, ¬ r.covers i) →
      (bytesAsChars source)[i]? = (bytesAsChars other)[i]?)
    (lineFeeds : ∀ i < utf8Length source,
      (bytesAsChars source)[i]? = some '\n' ↔ (bytesAsChars other)[i]? = some '\n')
    (returns : ∀ i < utf8Length source,
      (bytesAsChars source)[i]? = some '\r' ↔ (bytesAsChars other)[i]? = some '\r') : AlikeOutside source other where
  length := length
  sameRegions := ofSource.trans ofOther.symm
  code i within outside := code i within (ofSource ▸ outside)
  lineBreaks i within lineBreak member := by
    simp only [List.mem_cons, List.not_mem_nil, or_false] at member
    rcases member with rfl | rfl
    · exact lineFeeds i within
    · exact returns i within

/-- Different texts have different bytes. -/
theorem bytesAsChars_injective {a b : List Char} (same : bytesAsChars a = bytesAsChars b) : a = b := by
  have toChar (x y : UInt8) (equal : Char.ofNat x.toNat = Char.ofNat y.toNat) : x = y := by
    have value := congrArg Char.toNat equal
    simp only [toNat_ofNat_byte] at value
    exact UInt8.toNat_inj.mp value
  have asBytes (cs : List Char) :
      bytesAsChars cs = (cs.flatMap String.utf8EncodeChar).map fun byte => Char.ofNat byte.toNat := by
    rw [List.map_flatMap]
    rfl
  rw [asBytes, asBytes] at same
  have encoded : a.utf8Encode = b.utf8Encode := by
    rw [List.utf8Encode, List.utf8Encode, (List.map_inj_right toChar).mp same]
  have decoded := congrArg ByteArray.utf8Decode? encoded
  rw [List.utf8Decode?_utf8Encode, List.utf8Decode?_utf8Encode, Option.some.injEq] at decoded
  exact Array.toList_inj.mpr decoded

theorem blankByte_blankByte (b : Char) : blankByte (blankByte b) = blankByte b := by
  by_cases lineBreak : b = '\n' ∨ b = '\r'
  · simp only [blankByte, if_pos lineBreak]
  · simp only [blankByte, if_neg lineBreak]
    rfl

/-- Bytes are blanked alike unless one of them is a line break. -/
theorem blankByte_eq {a b : Char} (alike : ∀ lineBreak ∈ ['\n', '\r'], a = lineBreak ↔ b = lineBreak) :
    blankByte a = blankByte b := by
  have feed := alike '\n' (by simp)
  have return_ := alike '\r' (by simp)
  unfold blankByte
  by_cases lineBreak : a = '\n' ∨ a = '\r'
  · rw [if_pos lineBreak, if_pos (lineBreak.imp feed.mp return_.mp)]
    rcases lineBreak with rfl | rfl
    · exact (feed.mp rfl).symm
    · exact (return_.mp rfl).symm
  · rw [if_neg lineBreak, if_neg fun isBreak => lineBreak (isBreak.imp feed.mpr return_.mpr)]

theorem length_overwrite {bs : List Char} {r : Region} (order : r.start ≤ r.stop) (within : r.stop ≤ bs.length) :
    (overwrite bs r).length = bs.length := by
  simp only [overwrite, List.length_append, List.length_take, List.length_map, List.length_drop]
  omega

theorem getElem?_overwrite {bs : List Char} {r : Region} (order : r.start ≤ r.stop)
    (within : r.stop ≤ bs.length) (i : Nat) :
    (overwrite bs r)[i]? = if r.covers i then bs[i]?.map blankByte else bs[i]? := by
  have front : (bs.take r.start).length = r.start := by
    rw [List.length_take]
    omega
  have body : (((bs.drop r.start).take (r.stop - r.start)).map blankByte).length = r.stop - r.start := by
    rw [List.length_map, List.length_take, List.length_drop]
    omega
  rw [overwrite, List.append_assoc]
  by_cases before : i < r.start
  · have outside : ¬ r.covers i := fun inside => absurd inside.1 (by omega)
    rw [List.getElem?_append_left (by omega), List.getElem?_take_of_lt before, if_neg outside]
  · rw [List.getElem?_append_right (by omega), front]
    by_cases behind : r.stop ≤ i
    · have outside : ¬ r.covers i := fun inside => absurd inside.2 (by omega)
      have place : r.stop + (i - r.start - (r.stop - r.start)) = i := by omega
      rw [List.getElem?_append_right (by omega), body, List.getElem?_drop, place, if_neg outside]
    · have inside : r.covers i := ⟨by omega, by omega⟩
      have place : r.start + (i - r.start) = i := by omega
      rw [List.getElem?_append_left (by omega), List.getElem?_map, List.getElem?_take_of_lt (by omega),
        List.getElem?_drop, place, if_pos inside]

theorem getElem?_foldl_overwrite {rs : List Region} {bs : List Char}
    (fits : ∀ r ∈ rs, r.start ≤ r.stop ∧ r.stop ≤ bs.length) (i : Nat) :
    (rs.foldl overwrite bs)[i]? = if ∃ r ∈ rs, r.covers i then bs[i]?.map blankByte else bs[i]? := by
  induction rs generalizing bs with
  | nil => simp
  | cons r rs ih =>
    obtain ⟨order, within⟩ := fits r List.mem_cons_self
    have others : ∀ r' ∈ rs, r'.start ≤ r'.stop ∧ r'.stop ≤ (overwrite bs r).length := fun r' member =>
      (length_overwrite order within).symm ▸ fits r' (List.mem_cons_of_mem _ member)
    rw [List.foldl_cons, ih others, getElem?_overwrite order within]
    by_cases here : r.covers i
    · have covered : ∃ r' ∈ r :: rs, r'.covers i := ⟨r, List.mem_cons_self, here⟩
      rw [if_pos here, if_pos covered, Option.map_map]
      have twice : blankByte ∘ blankByte = blankByte := funext blankByte_blankByte
      rw [twice, ite_self]
    · simp only [List.mem_cons, exists_eq_or_imp, here, false_or, if_false]

theorem Region.isBoundary_of_mem {source : List Char} {r : Region} (inside : r ∈ regions source) :
    r.start ≤ r.stop ∧ IsBoundary r.start source ∧ IsBoundary r.stop source := by
  obtain ⟨body, taken, -⟩ := (Region.fits_of_mem inside).body
  obtain ⟨starts, stops, order⟩ := IsBoundary.of_slice taken
  exact ⟨order, starts, stops⟩

theorem getElem?_bytesAsChars_blank (source : List Char) (i : Nat) :
    (bytesAsChars (blank source))[i]? =
      if ∃ r ∈ regions source, r.covers i then (bytesAsChars source)[i]?.map blankByte
      else (bytesAsChars source)[i]? := by
  rw [← blankedBytes_eq, blankedBytes, regionsOfBytes_eq, getElem?_foldl_overwrite]
  intro r member
  obtain ⟨order, -, stops⟩ := Region.isBoundary_of_mem member
  rw [length_bytesAsChars]
  exact ⟨order, stops.le⟩

/-- Sources that differ in the contents of comments and literals alone have one blanked text. -/
theorem AlikeOutside.blank_eq {source other : List Char} (alike : AlikeOutside source other) :
    blank source = blank other := by
  refine bytesAsChars_injective (List.ext_getElem? fun i => ?_)
  rw [getElem?_bytesAsChars_blank, getElem?_bytesAsChars_blank, ← alike.sameRegions]
  by_cases within : i < utf8Length source
  · obtain ⟨a, atSource⟩ : ∃ a, (bytesAsChars source)[i]? = some a :=
      ⟨_, List.getElem?_eq_getElem (by rwa [length_bytesAsChars])⟩
    obtain ⟨b, atOther⟩ : ∃ b, (bytesAsChars other)[i]? = some b :=
      ⟨_, List.getElem?_eq_getElem (by rwa [length_bytesAsChars, ← alike.length])⟩
    by_cases covered : ∃ r ∈ regions source, r.covers i
    · have lineBreaks := alike.lineBreaks i within
      simp only [atSource, atOther, Option.some.injEq] at lineBreaks
      rw [if_pos covered, if_pos covered, atSource, atOther, Option.map_some, Option.map_some,
        blankByte_eq lineBreaks]
    · rw [if_neg covered, if_neg covered]
      exact alike.code i within fun r member here => covered ⟨r, member, here⟩
  · have outside (cs : List Char) (length : utf8Length source = utf8Length cs) : (bytesAsChars cs)[i]? = none :=
      List.getElem?_eq_none (by rw [length_bytesAsChars, ← length]; omega)
    rw [outside source rfl, outside other alike.length]

/-- Behind a whole first part a caret is moved as in what follows. -/
theorem floorBoundary_append {front : List Char} {caret : Nat} (le : utf8Length front ≤ caret)
    (rest : List Char) :
    floorBoundary caret (front ++ rest) = utf8Length front + floorBoundary (caret - utf8Length front) rest := by
  induction front generalizing caret with
  | nil => simp [floorBoundary]
  | cons c front ih =>
    rw [utf8Length_cons] at le
    have fits : c.utf8Size ≤ caret := by omega
    have le : utf8Length front ≤ caret - c.utf8Size := by omega
    have shorter := ih le
    simp only [floorBoundary] at shorter ⊢
    rw [List.cons_append, upTo, if_pos fits, utf8Length_cons, shorter, utf8Length_cons, Nat.sub_sub]
    omega

theorem floorBoundary_append_of_lt {front : List Char} {caret : Nat} (short : caret < utf8Length front)
    (rest : List Char) : floorBoundary caret (front ++ rest) = floorBoundary caret front := by
  induction front generalizing caret with
  | nil => simp at short
  | cons c front ih =>
    rw [utf8Length_cons] at short
    by_cases fits : c.utf8Size ≤ caret
    · have shorter : caret - c.utf8Size < utf8Length front := by omega
      have behind := ih shorter
      simp only [floorBoundary] at behind ⊢
      rw [List.cons_append, upTo, upTo, if_pos fits, if_pos fits, utf8Length_cons, behind, utf8Length_cons]
    · simp only [floorBoundary]
      rw [List.cons_append, upTo, upTo, if_neg fits, if_neg fits]

/-- The caret is not between the ends of a region. -/
def Apart (caret : Nat) (r : Region) : Prop := caret ≤ r.start ∨ r.stop ≤ caret

theorem apart_of_not_contains {r : Region} {caret : Nat} (outside : r.contains caret = false) :
    Apart caret r := by
  unfold Apart
  unfold Region.contains at outside
  split at outside <;> simp at outside <;> omega

theorem floorBoundary_flatMap_blanked {ps : List Piece} {offset caret : Nat}
    (apart : ∀ r ∈ regionsFrom offset ps, Apart (offset + caret) r) :
    floorBoundary caret (ps.flatMap Piece.blanked) = floorBoundary caret (ps.flatMap Piece.text) := by
  induction ps generalizing offset caret with
  | nil => rfl
  | cons p ps ih =>
    rw [List.flatMap_cons, List.flatMap_cons]
    have size := p.utf8Length_blanked
    by_cases behind : utf8Length p.text ≤ caret
    · have place : offset + utf8Length p.text + (caret - utf8Length p.text) = offset + caret := by omega
      have later : ∀ r ∈ regionsFrom (offset + utf8Length p.text) ps,
          Apart (offset + utf8Length p.text + (caret - utf8Length p.text)) r := by
        intro r member
        rw [place]
        refine apart r ?_
        simp only [regionsFrom]
        split
        · exact List.mem_cons_of_mem _ member
        · exact member
      rw [floorBoundary_append behind, floorBoundary_append (by rwa [size]), size, ih later]
    · cases kind : p.kind with
      | none =>
        have same : p.blanked = p.text := by simp [Piece.blanked, kind]
        rw [same, floorBoundary_append_of_lt (by omega), floorBoundary_append_of_lt (by omega)]
      | some region =>
        have here : ⟨region, offset, offset + utf8Length p.text⟩ ∈ regionsFrom offset (p :: ps) := by
          simp only [regionsFrom, kind]
          exact List.mem_cons_self
        have atStart : caret = 0 := by
          rcases apart _ here with before | after
          · simp only at before
            omega
          · simp only at after
            omega
        rw [atStart, Nat.le_zero.mp (floorBoundary_le 0 _), Nat.le_zero.mp (floorBoundary_le 0 _)]

/-- A caret outside of comments and literals is moved to the same boundary in the blanked text. -/
theorem floorBoundary_blank {source : List Char} {caret : Nat}
    (outside : inCommentOrLiteral source caret = false) :
    floorBoundary caret (blank source) = floorBoundary caret source := by
  have apart : ∀ r ∈ regionsFrom 0 (pieces source), Apart (0 + caret) r := by
    intro r member
    rw [Nat.zero_add]
    exact apart_of_not_contains (by simpa using List.any_eq_false.mp outside r member)
  have moved := floorBoundary_flatMap_blanked apart
  rwa [flatMap_text_pieces] at moved

/-- The caret is at one place in the two sources. -/
theorem AlikeOutside.floorBoundary_eq {source other : List Char} {caret : Nat} (alike : AlikeOutside source other)
    (outside : inCommentOrLiteral source caret = false) :
    floorBoundary caret source = floorBoundary caret other := by
  have outsideOther : inCommentOrLiteral other caret = false := by
    rw [inCommentOrLiteral, ← alike.sameRegions]
    exact outside
  rw [← floorBoundary_blank outside, alike.blank_eq, floorBoundary_blank outsideOther]

end Typeahead.Source
