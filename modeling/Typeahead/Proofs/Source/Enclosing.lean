import Typeahead.Proofs.Source.Braces

namespace Typeahead.Source

open Text

variable {text : List Char} {caret unclosedEnd : Nat} {p q : Place} {extent outer : BraceExtent} {r : TypeRegion}

theorem placesFrom_sorted (offset : Nat) (before cs : List Char) :
    (placesFrom offset before cs).Pairwise fun p q => p.offset < q.offset := by
  induction cs generalizing offset before with
  | nil => exact .nil
  | cons c cs ih =>
    refine .cons (fun q later => ?_) (ih _ _)
    obtain ⟨mid, -, -, place⟩ := mem_placesFrom later
    have := c.utf8Size_pos
    simp only
    omega

theorem typeDeclarations_sorted (text : List Char) :
    (typeDeclarations text).Pairwise fun p q => p.offset < q.offset :=
  (placesFrom_sorted 0 [] text).filter declaresType

/-- The region of a declaration has its braces as bounds. -/
theorem HasExtent.exists_region (braces : HasExtent p extent) (unclosedEnd : Nat) :
    ∃ r, TypeRegion.at? unclosedEnd p = some r ∧ r.start = p.offset ∧ r.bodyStart = extent.opening + 1 ∧
      r.stop = extent.closing.getD (max unclosedEnd r.bodyStart) := by
  obtain ⟨header, body, split, noBrace, noSemicolon, opening, closes⟩ := braces
  have first : breakFirst (· == '{') p.rest = some (header, '{', body) := by
    rw [split]
    exact breakFirst_append (fun c inside => beq_false_of_ne fun eq => noBrace (eq ▸ inside)) rfl
  have ends : header.contains ';' = false := by simpa using noSemicolon
  rw [closes_iff, opening] at closes
  rw [TypeRegion.at?, first]
  simp only [ends, Bool.false_eq_true, if_false]
  exact ⟨_, rfl, rfl, by simp only [opening], by simp only [closes]⟩

theorem exists_extent_of_at? (found : TypeRegion.at? unclosedEnd p = some r) : ∃ extent, HasExtent p extent := by
  unfold TypeRegion.at? at found
  split at found
  · simp at found
  · next header brace body first =>
    obtain ⟨shape, isBrace, noBrace⟩ := eq_append_of_breakFirst first
    obtain rfl : brace = '{' := by simpa using isBrace
    split at found
    · simp at found
    · next unended =>
      have closes : Closes (p.offset + utf8Length header + 1) body
          (closingBrace (p.offset + utf8Length header + 1) 1 body) := closes_iff.mpr rfl
      refine ⟨⟨_, _⟩, header, body, shape, fun inside => ?_, by simpa using unended, rfl, closes⟩
      simpa using noBrace '{' inside

/-- The braces of a declaration stand in the text. -/
theorem HasExtent.lt_utf8Length (inText : p ∈ places text) (braces : HasExtent p extent) :
    ∀ stop ∈ extent.closing, stop < utf8Length text := by
  obtain ⟨header, body, split, -, -, opening, closes⟩ := braces
  have brace : ('{' : Char).utf8Size = 1 := rfl
  have length : utf8Length text = extent.opening + 1 + utf8Length body := by
    rw [← offset_add_rest inText, split, utf8Length_append, utf8Length_cons, opening, brace]
    omega
  intro stop isStop
  rw [isStop] at closes
  cases closes with
  | @behind inside closes =>
    obtain ⟨later, rfl⟩ := closes.brace
    have := lt_utf8Length_append_cons inside '}' later
    rw [length, List.append_assoc, List.singleton_append]
    omega

/-- The caret stands behind the keyword of a declaration and between its braces. -/
structure Encloses (text : List Char) (caret : Nat) (p : Place) (extent : BraceExtent) : Prop where
  declared : p ∈ typeDeclarations text
  before : p.offset < caret
  braces : HasExtent p extent
  opened : extent.opening < caret
  unclosed : ∀ stop ∈ extent.closing, caret ≤ stop

theorem Encloses.mem_places (encloses : Encloses text caret p extent) : p ∈ places text :=
  (List.mem_filter.mp encloses.declared).1

/-- Of two declarations around a caret the later one lies within the earlier one. -/
theorem Encloses.within (first : Encloses text caret p outer) (second : Encloses text caret q extent)
    (le : p.offset ≤ q.offset) : extent.Within outer := by
  refine (first.braces.nested_or_apart first.mem_places second.mem_places le second.braces).resolve_right ?_
  rintro ⟨stop, isStop, apart⟩
  have := first.unclosed stop isStop
  have := second.opened
  omega

/-- Offset of the first declaration at the caret or behind it, or of the end of the text. -/
def nextDeclaration (text : List Char) (caret : Nat) : Nat :=
  (((typeDeclarations text).find? (caret ≤ ·.offset)).map (·.offset)).getD (utf8Length text)

theorem nextDeclaration_bounds (within : caret ≤ utf8Length text) :
    caret ≤ nextDeclaration text caret ∧ nextDeclaration text caret ≤ utf8Length text := by
  unfold nextDeclaration
  cases next : (typeDeclarations text).find? (caret ≤ ·.offset) with
  | none => exact ⟨within, Nat.le_refl _⟩
  | some q =>
    have whole := offset_add_rest (List.mem_filter.mp (List.mem_of_find?_eq_some next)).1
    have behind := List.find?_some next
    refine ⟨by simpa using behind, ?_⟩
    rw [Option.map_some, Option.getD_some, ← whole]
    exact Nat.le_add_right _ _

/-- The region that the search tries at a place, when it holds the caret. -/
def regionAround? (text : List Char) (caret : Nat) (p : Place) : Option TypeRegion :=
  (TypeRegion.at? (max (nextDeclaration text caret) caret) p).filter fun r => r.bodyStart ≤ caret && caret ≤ r.stop

theorem enclosingType_eq (text : List Char) (caret : Nat) :
    enclosingType text caret =
      ((typeDeclarations text).filter (·.offset < caret)).reverse.findSome? (regionAround? text caret) := rfl

/-- What the search finds at a place is the region of a declaration around the caret. -/
theorem exists_encloses_of_regionAround? (within : caret ≤ utf8Length text) (declared : p ∈ typeDeclarations text)
    (before : p.offset < caret) (found : regionAround? text caret p = some r) :
    ∃ extent, Encloses text caret p extent ∧ r.start = p.offset ∧ r.bodyStart = extent.opening + 1 ∧
      r.stop = extent.closing.getD (nextDeclaration text caret) := by
  obtain ⟨region, inside⟩ := Option.filter_eq_some_iff.mp found
  obtain ⟨extent, braces⟩ := exists_extent_of_at? region
  obtain ⟨same, isRegion, start, bodyStart, stop⟩ := braces.exists_region (max (nextDeclaration text caret) caret)
  obtain rfl := Option.some.inj (region.symm.trans isRegion)
  simp only [Bool.and_eq_true, decide_eq_true_eq] at inside
  have bounds := nextDeclaration_bounds within
  have unclosedEnd : max (max (nextDeclaration text caret) caret) r.bodyStart = nextDeclaration text caret := by omega
  rw [unclosedEnd] at stop
  refine ⟨extent, ⟨declared, before, braces, by omega, fun closing isClosing => ?_⟩, start, bodyStart, stop⟩
  rw [isClosing, Option.getD_some] at stop
  omega

theorem Encloses.isSome_regionAround? (encloses : Encloses text caret p extent) :
    (regionAround? text caret p).isSome = true := by
  obtain ⟨r, isRegion, -, bodyStart, stop⟩ :=
    encloses.braces.exists_region (max (nextDeclaration text caret) caret)
  have opened := encloses.opened
  have reaches : caret ≤ r.stop := by
    rw [stop]
    cases closing : extent.closing with
    | none => rw [Option.getD_none]; omega
    | some brace => exact encloses.unclosed brace closing
  rw [regionAround?, isRegion, Option.filter_some_pos (by simp; omega)]
  rfl

/-- The search finds the last of the declarations around the caret. -/
theorem exists_of_enclosingType (within : caret ≤ utf8Length text) (found : enclosingType text caret = some r) :
    ∃ p extent, Encloses text caret p extent ∧ regionAround? text caret p = some r ∧
      ∀ q outer, Encloses text caret q outer → q.offset ≤ p.offset := by
  rw [enclosingType_eq] at found
  obtain ⟨tried, p, untried, split, region, none⟩ := List.findSome?_eq_some_iff.mp found
  have member : p ∈ ((typeDeclarations text).filter (·.offset < caret)).reverse := by simp [split]
  obtain ⟨declared, before⟩ := List.mem_filter.mp (List.mem_reverse.mp member)
  obtain ⟨extent, encloses, -⟩ :=
    exists_encloses_of_regionAround? within declared (of_decide_eq_true before) region
  refine ⟨p, extent, encloses, region, fun q outer other => ?_⟩
  -- the declarations tried before `p` stand behind it, and none of them holds the caret
  have sorted : (tried ++ p :: untried).Pairwise fun a b => b.offset < a.offset := by
    rw [← split, List.pairwise_reverse]
    exact (typeDeclarations_sorted text).filter _
  have inList : q ∈ tried ++ p :: untried := by
    rw [← split, List.mem_reverse]
    exact List.mem_filter.mpr ⟨other.declared, decide_eq_true other.before⟩
  rcases List.mem_append.mp inList with earlier | here
  · have some := other.isSome_regionAround?
    rw [none q earlier] at some
    exact absurd some (by simp)
  · rcases List.mem_cons.mp here with rfl | later
    · exact Nat.le_refl _
    · exact ((List.pairwise_cons.mp (List.pairwise_append.mp sorted).2.1).1 q later).le

theorem Encloses.isSome_enclosingType (encloses : Encloses text caret p extent) :
    (enclosingType text caret).isSome = true := by
  rw [enclosingType_eq, List.findSome?_isSome_iff]
  refine ⟨p, ?_, encloses.isSome_regionAround?⟩
  exact List.mem_reverse.mpr (List.mem_filter.mpr ⟨encloses.declared, decide_eq_true encloses.before⟩)

/-- Where a declaration is around the caret, the first one begins before it. -/
theorem isBeforeFirstType_eq_false (found : enclosingType text caret = some r) :
    isBeforeFirstType text caret = false := by
  obtain ⟨p, member, -⟩ := List.exists_of_findSome?_eq_some (enclosingType_eq text caret ▸ found)
  obtain ⟨declared, before⟩ := List.mem_filter.mp (List.mem_reverse.mp member)
  have sorted := typeDeclarations_sorted text
  unfold isBeforeFirstType typeDeclarationOffsets
  cases all : typeDeclarations text with
  | nil => simp [all] at declared
  | cons first later =>
    rw [all] at sorted declared
    have le : first.offset ≤ p.offset := by
      rcases List.mem_cons.mp declared with rfl | behind
      · exact Nat.le_refl _
      · exact ((List.pairwise_cons.mp sorted).1 p behind).le
    have lt : p.offset < caret := of_decide_eq_true before
    simpa using Nat.lt_of_le_of_lt le lt

/-- The declaration around a caret is the innermost one. There is a region exactly when some declaration has the
caret between its braces. The region starts at the last such declaration, begins behind the opening brace and
ends at the closing one, or where there is none at the next declaration; the caret stands in it; and the braces
of this declaration stand within those of every other one around the caret. -/
theorem enclosingType_innermost (within : caret ≤ utf8Length text) :
    ((enclosingType text caret).isSome = true ↔ ∃ p extent, Encloses text caret p extent) ∧
      ∀ r, enclosingType text caret = some r → ∃ p extent, Encloses text caret p extent ∧ r.start = p.offset ∧
        r.bodyStart = extent.opening + 1 ∧ r.stop = extent.closing.getD (nextDeclaration text caret) ∧
        r.bodyStart ≤ caret ∧ caret ≤ r.stop ∧ r.stop ≤ utf8Length text ∧
        ∀ q outer, Encloses text caret q outer → q.offset ≤ p.offset ∧ extent.Within outer := by
  constructor
  · constructor
    · intro some
      obtain ⟨r, found⟩ := Option.isSome_iff_exists.mp some
      obtain ⟨p, extent, encloses, -⟩ := exists_of_enclosingType within found
      exact ⟨p, extent, encloses⟩
    · rintro ⟨p, extent, encloses⟩
      exact encloses.isSome_enclosingType
  · intro r found
    obtain ⟨p, _, tried, region, last⟩ := exists_of_enclosingType within found
    obtain ⟨extent, encloses, start, bodyStart, stop⟩ :=
      exists_encloses_of_regionAround? within tried.declared tried.before region
    obtain ⟨-, inside⟩ := Option.filter_eq_some_iff.mp region
    simp only [Bool.and_eq_true, decide_eq_true_eq] at inside
    refine ⟨p, extent, encloses, start, bodyStart, stop, inside.1, inside.2, ?_, fun q outer other => ?_⟩
    · rw [stop]
      cases closing : extent.closing with
      | none => exact (nextDeclaration_bounds within).2
      | some brace => exact (encloses.braces.lt_utf8Length encloses.mem_places brace closing).le
    · have le := last q outer other
      exact ⟨le, other.within encloses le⟩

/-- A closed declaration with another one in it, in a declaration that is never closed. -/
def nestedText : List Char := "class A\x7bclass B\x7bint x;class C\x7b\x7d\x7d".toList

theorem enclosingType_innermost_nested :
    22 ≤ utf8Length nestedText ∧ (enclosingType nestedText 22).isSome = true ∧
      ∃ extent, (∃ p, Encloses nestedText 22 p extent ∧ p.offset = 8) ∧ extent = ⟨15, some 31⟩ ∧
        ∀ q outer, Encloses nestedText 22 q outer → q.offset ≤ 8 ∧ extent.Within outer := by
  have within : 22 ≤ utf8Length nestedText := by decide
  obtain ⟨-, innermost⟩ := enclosingType_innermost within
  have read : (enclosingType nestedText 22).map (fun r => (r.start, r.bodyStart, r.stop)) = some (8, 16, 31) := by
    decide +kernel
  obtain ⟨r, found, bounds⟩ := Option.map_eq_some_iff.mp read
  obtain ⟨p, ⟨opening, closing⟩, encloses, start, bodyStart, stop, -, -, -, others⟩ := innermost r found
  simp only [Prod.mk.injEq] at bounds
  have place : p.offset = 8 := by omega
  refine ⟨within, by rw [found]; rfl, ⟨opening, closing⟩, ⟨p, encloses, place⟩, ?_, place ▸ others⟩
  have next : nextDeclaration nestedText 22 = 22 := by decide +kernel
  rw [next, bounds.2.2] at stop
  cases closing with
  | none => simp at stop
  | some brace =>
    rw [Option.getD_some] at stop
    simp only [BraceExtent.mk.injEq, Option.some.injEq]
    simp only at bodyStart
    omega

end Typeahead.Source
