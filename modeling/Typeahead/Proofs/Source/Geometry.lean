import Typeahead.Proofs.Source.Contents
import Typeahead.Proofs.Source.Inside

namespace Typeahead.Source

open Text

/-- The regions begin one behind the other, and none begins in an earlier one. -/
def AreApart (rs : List Region) : Prop := rs.Pairwise fun r later => r.start < later.start ∧ r.stop ≤ later.start

theorem le_start_of_mem_regionsFrom {ps : List Piece} {offset : Nat} {r : Region} (inside : r ∈ regionsFrom offset ps) :
    offset ≤ r.start := by
  obtain ⟨earlier, p, later, -, -, start, -⟩ := exists_piece_of_mem_regionsFrom inside
  omega

theorem lt_start_of_mem_regionsFrom_code {ps : List Piece} {c : Char} {offset : Nat} {r : Region}
    (inside : r ∈ regionsFrom offset (code c :: ps)) : offset < r.start := by
  have behind : offset + utf8Length [c] ≤ r.start := le_start_of_mem_regionsFrom inside
  have positive := c.utf8Size_pos
  rw [utf8Length_cons] at behind
  omega

theorem areApart_codes {ps : List Piece} (apart : ∀ offset, AreApart (regionsFrom offset ps))
    (cs : List Char) (offset : Nat) : AreApart (regionsFrom offset (cs.map code ++ ps)) := by
  induction cs generalizing offset with
  | nil => exact apart offset
  | cons c cs ih => exact ih _

/-- Behind a comment, which is never empty. -/
theorem areApart_comment {kind : RegionKind} {c : Char} {text : List Char} {ps : List Piece}
    (apart : ∀ offset, AreApart (regionsFrom offset ps)) (offset : Nat) :
    AreApart (regionsFrom offset (⟨some kind, c :: text⟩ :: ps)) := by
  refine List.pairwise_cons.mpr ⟨fun r later => ?_, apart _⟩
  have behind : offset + utf8Length (c :: text) ≤ r.start := le_start_of_mem_regionsFrom later
  have positive : 0 < utf8Length (c :: text) := Nat.lt_of_lt_of_le c.utf8Size_pos (Nat.le_add_right ..)
  exact ⟨Nat.lt_of_lt_of_le (Nat.lt_add_of_pos_right positive) behind, behind⟩

/-- Behind the body of a literal, which may be empty: a character of code follows it, or nothing. -/
theorem areApart_literalPieces {quote : Char} {body later : List Char}
    (ends : ∀ c more, later = c :: more → c ≠ quote → ∃ ps, pieces later = code c :: ps)
    (apart : ∀ offset, AreApart (regionsFrom offset (pieces (literalPieces quote body later).2))) (offset : Nat) :
    AreApart (regionsFrom offset
      ((literalPieces quote body later).1 ++ pieces (literalPieces quote body later).2)) := by
  have behind {ps : List Piece} {c : Char} (tail : ∀ offset, AreApart (regionsFrom offset (code c :: ps))) :
      AreApart (regionsFrom offset (⟨some .literal, body⟩ :: code c :: ps)) := by
    refine List.pairwise_cons.mpr ⟨fun r inside => ?_, tail _⟩
    have start : offset + utf8Length body < r.start := lt_start_of_mem_regionsFrom_code inside
    exact ⟨Nat.lt_of_le_of_lt (Nat.le_add_right ..) start, Nat.le_of_lt start⟩
  cases later with
  | nil =>
    have nothing : pieces (literalPieces quote body []).2 = [] := pieces.eq_1
    rw [nothing, List.append_nil]
    exact List.pairwise_singleton ..
  | cons c more =>
    by_cases closes : c = quote
    · subst closes
      simp only [literalPieces, if_true] at apart ⊢
      exact behind (areApart_codes apart [c])
    · obtain ⟨ps, first⟩ := ends c more rfl closes
      simp only [literalPieces, if_neg closes] at apart ⊢
      rw [first] at apart ⊢
      exact behind apart

theorem pieces_lineBreak (rest : List Char) : pieces ('\n' :: rest) = code '\n' :: pieces rest := by
  rw [pieces]
  · simp
  all_goals simp

theorem areApart_ordinary (quote : Char) (cs : List Char)
    (apart : ∀ offset, AreApart (regionsFrom offset
      (pieces (literalPieces quote (ordinaryBody quote cs).1 (ordinaryBody quote cs).2).2))) (offset : Nat) :
    AreApart (regionsFrom offset ((literalPieces quote (ordinaryBody quote cs).1 (ordinaryBody quote cs).2).1 ++
      pieces (literalPieces quote (ordinaryBody quote cs).1 (ordinaryBody quote cs).2).2)) := by
  refine areApart_literalPieces (fun c more split other => ?_) apart offset
  have lineBreak : c = '\n' := (ordinaryBody_head? quote cs c (by simp [split])).resolve_left other
  subst lineBreak
  rw [split]
  exact ⟨_, pieces_lineBreak more⟩

theorem areApart_verbatim (cs : List Char)
    (apart : ∀ offset, AreApart (regionsFrom offset
      (pieces (literalPieces '"' (verbatimBody cs).1 (verbatimBody cs).2).2))) (offset : Nat) :
    AreApart (regionsFrom offset ((literalPieces '"' (verbatimBody cs).1 (verbatimBody cs).2).1 ++
      pieces (literalPieces '"' (verbatimBody cs).1 (verbatimBody cs).2).2)) := by
  refine areApart_literalPieces (fun c more split other => ?_) apart offset
  rcases (run_verbatimBody cs).2 with none | ⟨others, quote, -, -⟩
  · simp [none] at split
  · exact absurd (List.cons.inj (split.symm.trans quote)).1 other

theorem areApart_regionsFrom (cs : List Char) (offset : Nat) : AreApart (regionsFrom offset (pieces cs)) := by
  fun_induction pieces cs generalizing offset with
  | case1 => exact List.Pairwise.nil
  | case2 rest ih => exact areApart_comment ih offset
  | case3 rest ih => exact areApart_comment ih offset
  | case4 rest read ih => exact areApart_codes (areApart_verbatim rest ih) ['@', '"'] offset
  | case5 rest read ih => exact areApart_codes (areApart_verbatim rest ih) ['@', '$', '"'] offset
  | case6 c rest _ _ _ _ _ read ih => exact areApart_codes (areApart_ordinary c rest ih) [c] offset
  | case7 c rest _ _ _ _ _ ih => exact areApart_codes ih [c] offset

/-- Characters that stand for bytes, as bytes. -/
def toBytes (bs : List Char) : ByteArray := (bs.map fun b => UInt8.ofNat b.toNat).toByteArray

theorem toBytes_bytesAsChars (cs : List Char) : toBytes (bytesAsChars cs) = cs.utf8Encode := by
  have each (byte : UInt8) : UInt8.ofNat (Char.ofNat byte.toNat).toNat = byte := by
    rw [toNat_ofNat_byte, UInt8.ofNat_toNat]
  have all : (bytesAsChars cs).map (fun b => UInt8.ofNat b.toNat) = cs.flatMap String.utf8EncodeChar := by
    simp only [bytesAsChars, List.map_flatMap, List.map_map, Function.comp_def, each, List.map_id']
  rw [toBytes, all]
  rfl

/-- The bytes of a text are read as that text. -/
theorem fromUTF8?_toBytes (cs : List Char) :
    String.fromUTF8? (toBytes (bytesAsChars cs)) = some (String.ofList cs) := by
  have valid : cs.utf8Encode.IsValidUTF8 := .intro cs rfl
  rw [toBytes_bytesAsChars, String.fromUTF8?, dif_pos valid]
  rfl

/-- A region covers the byte, and it is no line break. -/
def IsBlanked (source : List Char) (i : Nat) (b : Char) : Prop :=
  (∃ r ∈ regions source, r.covers i) ∧ b ≠ '\n' ∧ b ≠ '\r'

theorem getElem?_blank_of_isBlanked {source : List Char} {i : Nat} {b : Char}
    (byte : (bytesAsChars source)[i]? = some b) (isBlanked : IsBlanked source i b) :
    (bytesAsChars (blank source))[i]? = some ' ' := by
  obtain ⟨covered, noFeed, noReturn⟩ := isBlanked
  rw [getElem?_bytesAsChars_blank, if_pos covered, byte, Option.map_some, blankByte,
    if_neg (not_or.mpr ⟨noFeed, noReturn⟩)]

theorem getElem?_blank_of_not_isBlanked {source : List Char} {i : Nat} {b : Char}
    (byte : (bytesAsChars source)[i]? = some b) (stays : ¬ IsBlanked source i b) :
    (bytesAsChars (blank source))[i]? = some b := by
  rw [getElem?_bytesAsChars_blank, byte]
  split
  · next covered =>
    have lineBreak : b = '\n' ∨ b = '\r' := by
      by_contra other
      exact stays ⟨covered, not_or.mp other⟩
    rw [Option.map_some, blankByte, if_pos lineBreak]
  · rfl

theorem blankByte_beq {lineBreak : Char} (isBreak : lineBreak ∈ ['\n', '\r']) (b : Char) :
    (blankByte b == lineBreak) = (b == lineBreak) := by
  simp only [List.mem_cons, List.not_mem_nil, or_false] at isBreak
  unfold blankByte
  split
  · rfl
  · next other =>
    have differs : b ≠ lineBreak := fun same => other (same ▸ isBreak)
    have space : ' ' ≠ lineBreak := by rcases isBreak with rfl | rfl <;> decide
    rw [beq_eq_false_iff_ne.mpr differs, beq_eq_false_iff_ne.mpr space]

/-- The line breaks before an offset are as many in the blanked text as in the source. -/
theorem count_lineBreak_blank {lineBreak : Char} (isBreak : lineBreak ∈ ['\n', '\r']) (source : List Char)
    (offset : Nat) : ((bytesAsChars (blank source)).take offset).count lineBreak =
      ((bytesAsChars source).take offset).count lineBreak := by
  have marks : (bytesAsChars (blank source)).map (· == lineBreak) = (bytesAsChars source).map (· == lineBreak) := by
    refine List.ext_getElem? fun i => ?_
    rw [List.getElem?_map, List.getElem?_map, getElem?_bytesAsChars_blank]
    split
    · rw [Option.map_map]
      exact congrArg (Option.map · _) (funext (blankByte_beq isBreak))
    · rfl
  have counted (bs : List Char) : (bs.take offset).count lineBreak =
      ((bs.map (· == lineBreak)).take offset).count true := by
    rw [← List.map_take, List.count_eq_countP, List.count_eq_countP, List.countP_map]
    congr 1
    funext b
    simp
  rw [counted, counted, marks]

/-- Inside a blanked character there are boundaries of the blanked text that the source has not, and nowhere else. -/
theorem isBoundary_of_blanked {ps : List Piece} {n : Nat} (boundary : IsBoundary n (ps.flatMap Piece.blanked))
    (offset : Nat) :
    IsBoundary n (ps.flatMap Piece.text) ∨ ∃ r ∈ regionsFrom offset ps, r.start < offset + n ∧ offset + n < r.stop := by
  induction ps generalizing offset n with
  | nil => exact .inl boundary
  | cons p ps ih =>
    obtain ⟨before, after, whole, rfl⟩ := boundary
    rw [List.flatMap_cons] at whole ⊢
    have size := p.utf8Length_blanked
    rcases append_eq_append_cases whole with ⟨middle, here, -⟩ | ⟨beyond, -, rfl, behind⟩
    · cases kind : p.kind with
      | none =>
        have same : p.blanked = p.text := by simp [Piece.blanked, kind]
        rw [← same, here]
        exact .inl ((isBoundary_append before middle).append_right _)
      | some region =>
        have length := congrArg utf8Length here
        rw [size, utf8Length_append] at length
        by_cases atStart : utf8Length before = 0
        · exact .inl (atStart ▸ isBoundary_zero _)
        by_cases atEnd : utf8Length middle = 0
        · have full : utf8Length before = utf8Length p.text := by omega
          exact .inl (full ▸ isBoundary_append _ _)
        · refine .inr ⟨⟨region, offset, offset + utf8Length p.text⟩, ?_, ?_⟩
          · simp only [regionsFrom, kind]
            exact List.mem_cons_self
          · exact ⟨by change offset < _; omega, by change _ < offset + utf8Length p.text; omega⟩
    · rw [utf8Length_append, size]
      rcases ih ⟨beyond, after, behind, rfl⟩ (offset + utf8Length p.text) with found | ⟨r, inside, start, stop⟩
      · exact .inl (found.append_left _)
      · refine .inr ⟨r, ?_, by omega, by omega⟩
        simp only [regionsFrom]
        split
        · exact List.mem_cons_of_mem _ inside
        · exact inside

/-- The scan over the bytes of a source finds regions between boundaries of the source, one behind the other. What it
leaves of the bytes is a text of the same length, in which the bytes of a region are spaces and all others, and all line
breaks, are what they were. So each offset is on one line in both texts, and a boundary in one of them is a boundary in
the other, unless it lies inside a region. -/
theorem blank_keeps_layout (source : List Char) :
    regionsOfBytes source = regions source ∧ AreApart (regions source) ∧
      (∀ r ∈ regions source, r.start ≤ r.stop ∧ IsBoundary r.start source ∧ IsBoundary r.stop source) ∧
      String.fromUTF8? (toBytes (blankedBytes source)) = some (String.ofList (blank source)) ∧
      utf8Length (blank source) = utf8Length source ∧
      (∀ i b, (bytesAsChars source)[i]? = some b →
        (IsBlanked source i b → (bytesAsChars (blank source))[i]? = some ' ') ∧
          (¬ IsBlanked source i b → (bytesAsChars (blank source))[i]? = some b)) ∧
      (∀ offset, ∀ lineBreak ∈ ['\n', '\r'],
        ((bytesAsChars (blank source)).take offset).count lineBreak =
          ((bytesAsChars source).take offset).count lineBreak) ∧
      (∀ n, IsBoundary n source → IsBoundary n (blank source)) ∧
      ∀ n, IsBoundary n (blank source) → IsBoundary n source ∨ ∃ r ∈ regions source, r.start < n ∧ n < r.stop := by
  refine ⟨regionsOfBytes_eq source, areApart_regionsFrom source 0, fun r => Region.isBoundary_of_mem, ?_,
    utf8Length_blank source, fun i b byte => ⟨getElem?_blank_of_isBlanked byte, getElem?_blank_of_not_isBlanked byte⟩,
    fun offset lineBreak isBreak => count_lineBreak_blank isBreak source offset, fun n => isBoundary_blank,
    fun n boundary => ?_⟩
  · rw [blankedBytes_eq]
    exact fromUTF8?_toBytes _
  · have found := isBoundary_of_blanked boundary 0
    rwa [flatMap_text_pieces, Nat.zero_add] at found

end Typeahead.Source
