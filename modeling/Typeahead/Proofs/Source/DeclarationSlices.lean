import Typeahead.Proofs.Source.ByteTokens
import Typeahead.Proofs.Text.Boundary
import Typeahead.Source.Context

namespace Typeahead.Source

open Text

/-- What a search finds can be taken out where it was found. -/
theorem slice_of_mem_places {text word : List Char} {p : Place} (member : p ∈ places text)
    (here : word <+: p.rest) : slice p.offset (p.offset + utf8Length word) text = .ok word := by
  obtain ⟨whole, offset⟩ := mem_places member
  obtain ⟨later, found⟩ := here
  refine slice_of_append _ later ?_ offset.symm rfl
  rw [whole, ← found, List.append_assoc]

theorem isBoundary_of_mem_places {text : List Char} {p : Place} (member : p ∈ places text) :
    IsBoundary p.offset text := by
  have nothing := slice_of_mem_places member List.nil_prefix
  exact (IsBoundary.of_slice nothing).1

/-- The modifiers in front of a place reach up to it. -/
theorem slice_modifiersBefore {text : List Char} {p : Place} (member : p ∈ places text) :
    ∃ start, slice start p.offset text = .ok (modifiersBefore p) := by
  obtain ⟨whole, offset⟩ := mem_places member
  have suffix : modifiersBefore p <:+ p.before.reverse :=
    List.reverse_suffix.mpr (List.takeWhile_prefix _)
  obtain ⟨front, split⟩ := suffix
  refine ⟨_, slice_of_append _ p.rest (by rw [split]; exact whole) rfl ?_⟩
  rw [← utf8Length_append, split, offset]

theorem slice_of_baseClause {depth : Int} {named clause : List Char}
    (found : baseClause depth named = some clause) :
    ∃ colon, slice colon (colon + 1) named = .ok [':'] ∧
      slice (colon + 1) (utf8Length named) named = .ok clause := by
  obtain ⟨front, rfl⟩ : ∃ front, named = front ++ ':' :: clause := by
    induction named generalizing depth with
    | nil => simp [baseClause] at found
    | cons c cs ih =>
      have further {depth : Int} (found : baseClause depth cs = some clause) :
          ∃ front, c :: cs = front ++ ':' :: clause := by
        obtain ⟨front, split⟩ := ih found
        exact ⟨c :: front, by rw [split, List.cons_append]⟩
      simp only [baseClause] at found
      split at found
      · exact further found
      · split at found
        · exact further found
        · split at found
          · next colon =>
            simp only [Option.some.injEq] at found
            exact ⟨[], by rw [colon.1, found, List.nil_append]⟩
          · exact further found
  have one : (':' : Char).utf8Size = 1 := rfl
  refine ⟨utf8Length front, ?_, ?_⟩
  · exact slice_of_append _ clause (by simp) rfl (by simp [one])
  · exact slice_of_append (front ++ [':']) [] (by simp) (by simp [one])
      (by simp only [utf8Length_append, utf8Length_cons, one]; omega)

theorem slice_beforeConstraints (clause : List Char) :
    ∃ stop, slice 0 stop clause = .ok (beforeConstraints clause) := by
  unfold beforeConstraints
  split
  · exact ⟨_, slice_of_append [] [] (by simp) rfl rfl⟩
  · next p others found =>
    have first : p ∈ wordPlaces "where".toList clause := found ▸ List.mem_cons_self ..
    obtain ⟨whole, -⟩ := mem_places (List.mem_filter.mp first).1
    exact ⟨_, slice_of_append [] p.rest (by simpa using whole) rfl rfl⟩

theorem isBoundary_closingBrace {depth : Nat} {front cs : List Char} {stop : Nat} (back : List Char)
    (found : closingBrace (utf8Length front) depth cs = some stop) :
    IsBoundary stop (front ++ cs ++ back) ∧ utf8Length front ≤ stop := by
  induction cs generalizing front depth with
  | nil => simp [closingBrace] at found
  | cons c cs ih =>
    have next : utf8Length front + c.utf8Size = utf8Length (front ++ [c]) := by simp
    have further {depth : Nat} (found : closingBrace (utf8Length front + c.utf8Size) depth cs = some stop) :
        IsBoundary stop (front ++ c :: cs ++ back) ∧ utf8Length front ≤ stop := by
      rw [next] at found
      obtain ⟨boundary, le⟩ := ih found
      rw [← next] at le
      exact ⟨by simpa using boundary, by omega⟩
    simp only [closingBrace] at found
    split at found
    · exact further found
    · split at found
      · split at found
        · simp only [Option.some.injEq] at found
          subst found
          rw [List.append_assoc]
          exact ⟨isBoundary_append _ _, Nat.le_refl _⟩
        · exact further found
      · exact further found

/-- The bounds of a region are boundaries: its header stands in front of the opening brace, its body
behind it, and what the region says of the type is read off the header. -/
structure RegionFits (text : List Char) (r : TypeRegion) : Prop where
  header : ∃ header, slice r.start (r.bodyStart - 1) text = .ok header ∧
    r.bases = basesOf (trimStart ((header.dropWhile (!isBlank ·)).drop 1))
  brace : slice (r.bodyStart - 1) r.bodyStart text = .ok ['{']
  body : ∃ body, slice r.bodyStart r.stop text = .ok body

theorem TypeRegion.fits_of_at? {text : List Char} {p : Place} {unclosedEnd : Nat} {r : TypeRegion}
    (member : p ∈ places text) (ends : IsBoundary unclosedEnd text)
    (found : TypeRegion.at? unclosedEnd p = some r) : RegionFits text r := by
  obtain ⟨whole, offset⟩ := mem_places member
  unfold TypeRegion.at? at found
  split at found
  · simp at found
  · next header brace body split_ =>
    obtain ⟨rest, isBrace, -⟩ := eq_append_of_breakFirst split_
    simp only [beq_iff_eq] at isBrace
    subst isBrace
    split at found
    · simp at found
    · simp only [Option.some.injEq] at found
      subst found
      have one : ('{' : Char).utf8Size = 1 := rfl
      have bodyStart : utf8Length (p.before.reverse ++ header ++ ['{']) =
          p.offset + utf8Length header + 1 := by
        rw [offset]
        simp only [utf8Length_append, utf8Length_cons, utf8Length_nil, one]
      have parts : text = (p.before.reverse ++ header ++ ['{']) ++ body := by
        rw [whole, rest]
        simp
      refine ⟨⟨header, ?_, rfl⟩, ?_, ?_⟩
      · exact slice_of_append p.before.reverse ('{' :: body) (by simp [parts]) offset.symm
          (by simp only; omega)
      · exact slice_of_append (p.before.reverse ++ header) body (by simp [parts])
          (by simp only [utf8Length_append, offset]; omega)
          (by simp only [utf8Length_cons, utf8Length_nil, one]; omega)
      · have begins : IsBoundary (p.offset + utf8Length header + 1) text := by
          rw [← bodyStart, parts]
          exact isBoundary_append _ _
        cases closes : closingBrace (p.offset + utf8Length header + 1) 1 body with
        | none => exact begins.slice (isBoundary_max ends begins) (Nat.le_max_right _ _)
        | some stop =>
          rw [← bodyStart] at closes
          obtain ⟨stops, le⟩ := isBoundary_closingBrace [] closes
          rw [List.append_nil, ← parts] at stops
          rw [bodyStart] at le
          exact begins.slice stops le

/-- The type around a caret. -/
theorem fits_of_enclosingType {text : List Char} {caret : Nat} {r : TypeRegion}
    (boundary : IsBoundary caret text) (found : enclosingType text caret = some r) : RegionFits text r := by
  unfold enclosingType at found
  obtain ⟨p, member, inside⟩ := List.exists_of_findSome?_eq_some found
  obtain ⟨region, -⟩ := Option.filter_eq_some_iff.mp inside
  have place : p ∈ places text :=
    (List.mem_filter.mp (List.mem_filter.mp (List.mem_reverse.mp member)).1).1
  refine TypeRegion.fits_of_at? place (isBoundary_max ?_ boundary) region
  cases next : (typeDeclarations text).find? (caret ≤ ·.offset) with
  | none => exact isBoundary_utf8Length text
  | some q => exact isBoundary_of_mem_places (List.mem_filter.mp (List.mem_of_find?_eq_some next)).1

/-- A type found by its name. -/
theorem fits_of_typeNamed {text : List Char} {name : String} {r : TypeRegion}
    (found : typeNamed text name = some r) : RegionFits text r := by
  unfold typeNamed at found
  obtain ⟨p, member, inside⟩ := List.exists_of_findSome?_eq_some found
  obtain ⟨region, -⟩ := Option.filter_eq_some_iff.mp inside
  exact TypeRegion.fits_of_at? (List.mem_filter.mp member).1 (isBoundary_utf8Length text) region

theorem fits_of_mem_baseRegions {text : List Char} {budget : Nat} {seen pending : List String}
    {r : TypeRegion} (member : r ∈ baseRegions text budget seen pending) : RegionFits text r := by
  fun_induction baseRegions text budget seen pending with
  | case1 => simp at member
  | case2 => simp at member
  | case3 _ _ _ _ _ _ ih => exact ih member
  | case4 _ _ _ _ _ _ _ ih => exact ih member
  | case5 _ _ _ _ _ _ region found ih =>
    rcases List.mem_cons.mp member with rfl | later
    · exact fits_of_typeNamed found
    · exact ih later

/-- The scan of a body, and the tokens that it starts from. -/
def bodyScan (text : List Char) (r : TypeRegion) : Scan := ⟨text, min r.stop (utf8Length text)⟩

def bodyTokens (text : List Char) (r : TypeRegion) : List Token :=
  tokensFrom r.bodyStart (between r.bodyStart (bodyScan text r).stop text)

namespace RegionFits

variable {text : List Char} {r : TypeRegion}

theorem exists_body (fits : RegionFits text r) :
    ∃ before body rest, text = before ++ body ++ rest ∧ utf8Length before = r.bodyStart ∧
      utf8Length (before ++ body) = (bodyScan text r).stop ∧ bodyTokens text r = tokensFrom r.bodyStart body := by
  obtain ⟨body, taken⟩ := fits.body
  obtain ⟨-, stops, le⟩ := IsBoundary.of_slice taken
  have stop : (bodyScan text r).stop = r.stop := Nat.min_eq_left stops.le
  have inside : between r.bodyStart r.stop text = body :=
    between_of_slice (by rwa [Nat.max_eq_left le])
  obtain ⟨before, rest, whole, start, size⟩ := slice_eq_ok_iff.mp taken
  refine ⟨before, body, rest, whole, start, by rw [stop, size], ?_⟩
  rw [bodyTokens, stop, inside]

theorem slice_token (fits : RegionFits text r) {t : Token} (member : t ∈ bodyTokens text r) :
    slice t.start t.stop text = .ok t.lexeme.text := by
  obtain ⟨before, body, rest, whole, start, -, tokens⟩ := fits.exists_body
  rw [tokens, ← start] at member
  rw [whole]
  exact slice_of_mem_tokensFrom before member

theorem isBoundary_stop (fits : RegionFits text r) : IsBoundary (bodyScan text r).stop text := by
  obtain ⟨before, body, rest, whole, -, stop, -⟩ := fits.exists_body
  have boundary := isBoundary_append (before ++ body) rest
  rwa [stop, ← whole] at boundary

theorem isBoundary_offsetOf (fits : RegionFits text r) {ts : List Token} (inside : ts ⊆ bodyTokens text r) :
    IsBoundary ((bodyScan text r).offsetOf ts) text := by
  cases ts with
  | nil => exact fits.isBoundary_stop
  | cons t ts => exact (IsBoundary.of_slice (fits.slice_token (inside (List.mem_cons_self ..)))).1

/-- The text between two tokens of a body, or from one to the end of the scan. Where the tokens are the
wrong way round it is empty. -/
theorem slice_textBetween (fits : RegionFits text r) {first last : List Token}
    (firstInside : first ⊆ bodyTokens text r) (lastInside : last ⊆ bodyTokens text r) :
    ∃ piece, slice ((bodyScan text r).offsetOf first)
        (max ((bodyScan text r).offsetOf last) ((bodyScan text r).offsetOf first)) text = .ok piece ∧
      (bodyScan text r).textBetween first last = String.ofList (trim piece) := by
  have starts := fits.isBoundary_offsetOf firstInside
  have stops := fits.isBoundary_offsetOf lastInside
  obtain ⟨piece, taken⟩ := starts.slice (isBoundary_max stops starts) (Nat.le_max_right _ _)
  refine ⟨piece, taken, ?_⟩
  rw [Scan.textBetween, ← between_of_slice taken]
  rfl

end RegionFits

end Typeahead.Source
