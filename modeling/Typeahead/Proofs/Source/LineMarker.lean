import Typeahead.Proofs.Source.Contents
import Typeahead.Source.Directive

namespace Typeahead.Source

open Text

/-- What a piece says about the text around it. -/
def Piece.Stands (earlier : List Char) (p : Piece) (later : List Char) : Prop :=
  match p.kind with
  | none => ∃ c, p.text = [c] ∧ (c = '/' → later.head? ≠ some '/')
  | some .lineComment => p.text.head? = some '/' ∧ '\n' ∉ p.text ∧ (later = [] ∨ later.head? = some '\n')
  | some .blockComment => ∃ body, p.text = '/' :: '*' :: body
  | some .literal => ∃ quote, earlier.getLast? = some quote ∧ (quote = '"' ∨ quote = '\'')

/-- The pieces stand behind a text and behind each other. -/
def AllStand (earlier : List Char) : List Piece → Prop
  | [] => True
  | p :: ps => p.Stands earlier (ps.flatMap Piece.text) ∧ AllStand (earlier ++ p.text) ps

theorem stands_code {c : Char} {later : List Char} (plain : c = '/' → later.head? ≠ some '/')
    (earlier : List Char) : (code c).Stands earlier later := ⟨c, rfl, plain⟩

/-- The pieces of a literal stand behind its opening quote. -/
theorem allStand_literalPieces {quote : Char} (isQuote : quote = '"' ∨ quote = '\'') {body later : List Char}
    (ih : ∀ earlier, AllStand earlier (pieces (literalPieces quote body later).2)) (earlier : List Char) :
    AllStand (earlier ++ [quote])
      ((literalPieces quote body later).1 ++ pieces (literalPieces quote body later).2) := by
  have opened : (earlier ++ [quote]).getLast? = some quote := by simp
  have closing : quote ≠ '/' := by rcases isQuote with rfl | rfl <;> decide
  unfold literalPieces at ih ⊢
  split at ih
  · exact ⟨⟨quote, opened, isQuote⟩, ih _⟩
  · next c more =>
    by_cases closes : c = quote
    · subst closes
      simp only [if_true] at ih ⊢
      exact ⟨⟨c, opened, isQuote⟩, stands_code (fun slash => absurd slash closing) _, ih _⟩
    · simp only [if_neg closes] at ih ⊢
      exact ⟨⟨quote, opened, isQuote⟩, ih _⟩

theorem allStand_pieces (earlier source : List Char) : AllStand earlier (pieces source) := by
  fun_induction pieces source generalizing earlier with
  | case1 => trivial
  | case2 rest ih =>
    refine ⟨⟨rfl, ?_, ?_⟩, ih _⟩
    · have body : '\n' ∉ rest.takeWhile (· ≠ '\n') := fun member => by
        simpa using List.all_eq_true.mp List.all_takeWhile _ member
      simpa using body
    · rw [flatMap_text_pieces]
      cases behind : rest.dropWhile (· ≠ '\n') with
      | nil => exact .inl rfl
      | cons c more =>
        have stops := List.head?_dropWhile_not (fun c => decide (c ≠ '\n')) rest
        rw [behind] at stops
        exact .inr (by simpa using stops)
  | case3 rest ih => exact ⟨⟨_, rfl⟩, ih _⟩
  | case4 rest read ih =>
    refine ⟨stands_code (by simp) _, stands_code (by simp) _, ?_⟩
    exact allStand_literalPieces (.inl rfl) ih _
  | case5 rest read ih =>
    refine ⟨stands_code (by simp) _, stands_code (by simp) _, stands_code (by simp) _, ?_⟩
    exact allStand_literalPieces (.inl rfl) ih _
  | case6 c rest _ _ _ _ isQuote read ih =>
    have plain : c ≠ '/' := by rcases isQuote with rfl | rfl <;> decide
    exact ⟨stands_code (fun slash => absurd slash plain) _, allStand_literalPieces isQuote ih _⟩
  | case7 c rest comment _ _ _ _ ih =>
    refine ⟨stands_code (fun slash => ?_) _, ih _⟩
    rw [flatMap_text_pieces]
    intro first
    obtain ⟨more, begins⟩ := List.head?_eq_some_iff.mp first
    exact comment more slash begins

theorem AllStand.stands {earlier : List Char} {front back : List Piece} {p : Piece}
    (all : AllStand earlier (front ++ p :: back)) :
    p.Stands (earlier ++ front.flatMap Piece.text) (back.flatMap Piece.text) := by
  induction front generalizing earlier with
  | nil =>
    rw [List.flatMap_nil, List.append_nil]
    exact all.1
  | cons q front ih =>
    rw [List.flatMap_cons, ← List.append_assoc]
    exact ih all.2

/-- Every character of a source is in one of the pieces. -/
theorem exists_piece_of_flatMap_eq {ps : List Piece} {earlier later : List Char} {c : Char}
    (whole : ps.flatMap Piece.text = earlier ++ c :: later) :
    ∃ front p back before after, ps = front ++ p :: back ∧ p.text = before ++ c :: after ∧
      earlier = front.flatMap Piece.text ++ before ∧ later = after ++ back.flatMap Piece.text := by
  induction ps generalizing earlier with
  | nil => simp at whole
  | cons p ps ih =>
    rw [List.flatMap_cons] at whole
    rcases List.append_eq_append_iff.mp whole with ⟨mid, rfl, rest⟩ | ⟨mid, text, rest⟩
    · obtain ⟨front, q, back, before, after, rfl, text, rfl, rfl⟩ := ih rest
      exact ⟨p :: front, q, back, before, after, rfl, text, by simp, rfl⟩
    · cases mid with
      | nil =>
        obtain ⟨front, q, back, before, after, rfl, inside, none, rfl⟩ := @ih [] rest.symm
        refine ⟨p :: front, q, back, before, after, rfl, inside, ?_, rfl⟩
        rw [List.flatMap_cons, List.append_assoc, ← none, text, List.append_nil, List.append_nil]
      | cons d mid =>
        obtain ⟨rfl, rfl⟩ := List.cons.inj rest
        exact ⟨[], p, ps, earlier, mid, rfl, text, rfl, rfl⟩

theorem mem_regions_of_pieces {source : List Char} {front back : List Piece} {p : Piece} {kind : RegionKind}
    (split : pieces source = front ++ p :: back) (isKind : p.kind = some kind) :
    ⟨kind, utf8Length (front.flatMap Piece.text), utf8Length (front.flatMap Piece.text) + utf8Length p.text⟩ ∈
      regions source := by
  rw [regions, split, regionsFrom_append, Nat.zero_add]
  simp only [regionsFrom, isKind]
  exact List.mem_append_right _ List.mem_cons_self

/-- The text before the last line, which begins the text or stands behind a line break. -/
theorem exists_eq_append_lastField (p : Char → Bool) (cs : List Char) :
    ∃ earlier, cs = earlier ++ lastField p cs ∧ (∀ c, earlier.getLast? = some c → p c = true) ∧
      ∀ c ∈ lastField p cs, p c = false := by
  refine ⟨(cs.reverse.dropWhile (!p ·)).reverse, ?_, fun c last => ?_, fun c member => ?_⟩
  · rw [lastField, ← List.reverse_append, List.takeWhile_append_dropWhile, List.reverse_reverse]
  · rw [List.getLast?_reverse] at last
    have stops := List.head?_dropWhile_not (!p ·) cs.reverse
    rw [last] at stops
    simpa using stops
  · simpa using List.all_eq_true.mp List.all_takeWhile c (List.mem_reverse.mp member)

/-- No comment and no literal reaches over the start of the caret's line. -/
def LineBeginsOutside (source : List Char) (caret : Nat) : Prop :=
  ∀ start, lineStart source caret = .ok start → ∀ r ∈ regions source, ¬ (r.start < start ∧ start < r.stop)

/-- The marker that a line begins with. -/
theorem eq_append_of_embeddedOption? {text : List Char} {found : Char × List Char}
    (isMarked : embeddedOption? text = some found) :
    ∃ blanks rest, lastField (· == '\n') text = blanks ++ '/' :: '/' :: rest ∧ ∀ c ∈ blanks, isBlank c = true := by
  unfold embeddedOption? at isMarked
  split at isMarked
  · next marker rest trimmed =>
    refine ⟨(lastField (· == '\n') text).takeWhile isBlank, marker :: rest, ?_, fun c member => ?_⟩
    · rw [← trimmed, trimStart, List.takeWhile_append_dropWhile]
    · exact List.all_eq_true.mp List.all_takeWhile c member
  · simp at isMarked

/-- What stands between the start of a line and a comment is not part of the comment. -/
theorem eq_nil_of_blank {blanks inside after : List Char} {first c : Char}
    (allBlank : ∀ x ∈ blanks, isBlank x = true) (within : ∀ x ∈ inside, x ∈ blanks)
    (noBlank : isBlank first = false) (begins : (inside ++ c :: after).head? = some first) : inside = [] := by
  cases inside with
  | nil => rfl
  | cons x inside =>
    obtain rfl : x = first := by simpa using begins
    rw [allBlank x (within x List.mem_cons_self)] at noBlank
    exact Bool.noConfusion noBlank

/-- What ends with the text or at a line break holds what is left of the line. -/
theorem utf8Length_le_of_line {line rest after later : List Char} (behind : line ++ rest = after ++ later)
    (oneLine : '\n' ∉ line) (ends : later = [] ∨ later.head? = some '\n') : utf8Length line ≤ utf8Length after := by
  rcases List.append_eq_append_iff.mp behind with ⟨mid, longer, -⟩ | ⟨mid, same, split⟩
  · rw [longer, utf8Length_append]
    omega
  · cases mid with
    | nil => simp [same]
    | cons c mid =>
      obtain rfl : c = '\n' := by simpa [split] using ends
      exact absurd (by simp [same]) oneLine

/-- No quote stands directly before what follows the blanks at the start of a line. -/
theorem ne_quote_of_getLast? {earlier blanks : List Char} {quote : Char}
    (last : (earlier ++ blanks).getLast? = some quote)
    (lastBreak : ∀ c, earlier.getLast? = some c → (c == '\n') = true) (allBlank : ∀ c ∈ blanks, isBlank c = true) :
    ¬ (quote = '"' ∨ quote = '\'') := by
  intro isQuote
  rcases List.eq_nil_or_concat blanks with rfl | ⟨_, x, rfl⟩
  · have lineBreak := lastBreak quote (by simpa using last)
    rcases isQuote with rfl | rfl <;> simp at lineBreak
  · obtain rfl : x = quote := by simpa using last
    have blank := allBlank x (by simp)
    rcases isQuote with rfl | rfl <;> exact absurd blank (by decide)

/-- Where a line begins outside of comments and literals, no marker stands at its start while the caret
is outside of them as well. -/
theorem embeddedOption?_eq_none (before rest : List Char)
    (outside : inCommentOrLiteral (before ++ rest) (utf8Length before) = false)
    (begins : LineBeginsOutside (before ++ rest) (utf8Length before)) : embeddedOption? before = none := by
  rw [Option.eq_none_iff_forall_ne_some]
  intro found isMarked
  obtain ⟨blanks, marker, line, allBlank⟩ := eq_append_of_embeddedOption? isMarked
  obtain ⟨earlier, text, lastBreak, noBreak⟩ := exists_eq_append_lastField (· == '\n') before
  have start : lineStart (before ++ rest) (utf8Length before) = .ok (utf8Length earlier) := by
    have size := congrArg utf8Length text
    rw [utf8Length_append] at size
    rw [lineStart, cut_append]
    simp only [Except.map, size, Nat.add_sub_cancel_right]
  rw [line] at text noBreak
  have whole : (pieces (before ++ rest)).flatMap Piece.text =
      (earlier ++ blanks) ++ '/' :: ('/' :: marker ++ rest) := by
    rw [flatMap_text_pieces, text]
    simp
  obtain ⟨front, p, back, inside, after, split, atSlash, place, behind⟩ := exists_piece_of_flatMap_eq whole
  have stands := (split ▸ allStand_pieces [] (before ++ rest)).stands
  rw [List.nil_append, Piece.Stands] at stands
  cases kind : p.kind with
  | none =>
    simp only [kind] at stands
    obtain ⟨c, single, apart⟩ := stands
    rw [atSlash] at single
    obtain ⟨rfl, here⟩ := (List.append_eq_singleton_iff.mp single).resolve_right (by simp)
    obtain ⟨rfl, rfl⟩ := List.cons.inj here
    exact apart rfl (by rw [← List.nil_append (back.flatMap Piece.text), ← behind]; rfl)
  | some region =>
    have member := mem_regions_of_pieces split kind
    -- the region holds the slash and does not reach over the start of the line, so it begins in the line
    have onLine : utf8Length earlier ≤ utf8Length (front.flatMap Piece.text) := by
      have reaches := begins _ start _ member
      have size := congrArg utf8Length place
      have length := congrArg utf8Length atSlash
      simp only [utf8Length_append, utf8Length_cons] at size length reaches
      have slash : '/'.utf8Size = 1 := rfl
      omega
    obtain ⟨blanksBefore, fronts, blanksSplit⟩ := append_eq_append_of_le place onLine
    have within : ∀ x ∈ inside, x ∈ blanks := fun x here => by simp [blanksSplit, here]
    cases region with
    | lineComment =>
      simp only [kind] at stands
      obtain ⟨slash, oneLine, ends⟩ := stands
      rw [atSlash] at slash
      obtain rfl := eq_nil_of_blank allBlank within (by decide) slash
      have sameLine : '\n' ∉ '/' :: marker := fun lineBreak =>
        absurd (noBreak '\n' (List.mem_append_right _ (List.mem_cons_of_mem _ lineBreak))) (by decide)
      have length := utf8Length_le_of_line behind sameLine ends
      have missed := List.any_eq_false.mp outside _ member
      simp only [Region.contains, Bool.and_eq_true, decide_eq_true_eq, not_and, not_le] at missed
      have size := congrArg utf8Length text
      have starts := congrArg utf8Length place
      have stops := congrArg utf8Length atSlash
      simp only [utf8Length_append, utf8Length_cons, utf8Length_nil] at size starts stops length missed
      have slash : '/'.utf8Size = 1 := rfl
      omega
    | blockComment =>
      simp only [kind] at stands
      obtain ⟨body, opening⟩ := stands
      have slash : p.text.head? = some '/' := by rw [opening]; rfl
      rw [atSlash] at slash
      obtain rfl := eq_nil_of_blank allBlank within (by decide) slash
      rw [atSlash] at opening
      obtain rfl := (List.cons.inj opening).2
      exact absurd (List.cons.inj behind).1 (by decide)
    | literal =>
      simp only [kind] at stands
      obtain ⟨quote, last, isQuote⟩ := stands
      rw [fronts] at last
      exact ne_quote_of_getLast? last lastBreak (fun c here => allBlank c (by simp [blanksSplit, here])) isQuote

/-- A line break is a byte of no other character. -/
theorem lineFeed_mem_of_bytesAsChars {cs : List Char} (member : '\n' ∈ bytesAsChars cs) : '\n' ∈ cs := by
  obtain ⟨c, inside, byte⟩ : ∃ c ∈ cs, '\n' ∈ byteChars c := List.mem_flatMap.mp member
  by_cases ascii : c.toNat < 0x80
  · rw [byteChars_of_ascii ascii, List.mem_singleton] at byte
    rwa [byte]
  · exact absurd (toNat_of_mem_byteChars (Nat.le_of_not_lt ascii) byte) (by decide)

/-- The start of a line, told by the bytes before an offset. -/
theorem lineStart_spec {source : List Char} {offset start : Nat} (found : lineStart source offset = .ok start) :
    start ≤ offset ∧ (start = 0 ∨ (bytesAsChars source)[start - 1]? = some '\n') ∧
      ∀ i, start ≤ i → i < offset → (bytesAsChars source)[i]? ≠ some '\n' := by
  obtain ⟨⟨before, rest⟩, parts, place⟩ := map_eq_ok.mp found
  obtain ⟨rfl, rfl⟩ := cut_eq_ok parts
  obtain ⟨earlier, text, lastBreak, noBreak⟩ := exists_eq_append_lastField (· == '\n') before
  simp only at place
  generalize lastField (· == '\n') before = line at text noBreak place
  subst text
  rw [utf8Length_append, Nat.add_sub_cancel_right] at place
  subst place
  have size : (bytesAsChars earlier).length = utf8Length earlier := length_bytesAsChars earlier
  rw [utf8Length_append, List.append_assoc, bytesAsChars_append, bytesAsChars_append]
  refine ⟨Nat.le_add_right .., ?_, fun i starts stops here => ?_⟩
  · rcases List.eq_nil_or_concat earlier with rfl | ⟨front, c, rfl⟩
    · exact .inl rfl
    · obtain rfl : c = '\n' := by simpa using lastBreak c (by simp)
      refine .inr ?_
      have last : utf8Length (front.concat '\n') - 1 = (bytesAsChars front).length := by
        rw [List.concat_eq_append, utf8Length_append, length_bytesAsChars]
        rfl
      rw [last, List.concat_eq_append, bytesAsChars_append, List.append_assoc,
        List.getElem?_append_right (Nat.le_refl _), Nat.sub_self]
      rfl
  · have inLine : i - utf8Length earlier < (bytesAsChars line).length := by
      rw [length_bytesAsChars]
      omega
    rw [List.getElem?_append_right (by omega), size, List.getElem?_append_left inLine] at here
    exact absurd (noBreak '\n' (lineFeed_mem_of_bytesAsChars (List.mem_of_getElem? here))) (by decide)

theorem AlikeOutside.symm {source other : List Char} (alike : AlikeOutside source other) :
    AlikeOutside other source where
  length := alike.length.symm
  sameRegions := alike.sameRegions.symm
  code i within uncovered :=
    (alike.code i (alike.length ▸ within) fun r member => uncovered r (alike.sameRegions ▸ member)).symm
  lineBreaks i within lineBreak member := (alike.lineBreaks i (alike.length ▸ within) lineBreak member).symm

theorem AlikeOutside.lineStart_le {source other : List Char} (alike : AlikeOutside source other)
    {offset start otherStart : Nat} (within : offset ≤ utf8Length source)
    (found : lineStart source offset = .ok start) (foundOther : lineStart other offset = .ok otherStart) :
    otherStart ≤ start := by
  obtain ⟨-, -, noBreak⟩ := lineStart_spec found
  obtain ⟨le, lastBreak, -⟩ := lineStart_spec foundOther
  rcases lastBreak with atStart | lastBreak
  · omega
  · by_contra longer
    have same := (alike.lineBreaks (otherStart - 1) (by omega) '\n' (by simp)).mpr lastBreak
    exact noBreak (otherStart - 1) (by omega) (by omega) same

theorem AlikeOutside.lineBeginsOutside {source other : List Char} (alike : AlikeOutside source other)
    {offset : Nat} (boundary : IsBoundary offset source) (begins : LineBeginsOutside source offset) :
    LineBeginsOutside other offset := by
  intro otherStart foundOther r member
  obtain ⟨parts, cutOff⟩ := isBoundary_iff_cut.mp boundary
  obtain ⟨start, found⟩ : ∃ start, lineStart source offset = .ok start := ⟨_, by rw [lineStart, cutOff]; rfl⟩
  have le := alike.lineStart_le boundary.le found foundOther
  have ge := alike.symm.lineStart_le (alike.length ▸ boundary.le) foundOther found
  obtain rfl : otherStart = start := by omega
  exact begins _ found r (alike.sameRegions ▸ member)

end Typeahead.Source
