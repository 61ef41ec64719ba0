import Typeahead.Proofs.Lookup.Comments
import Typeahead.Proofs.Source.LineMarker

namespace Typeahead.Lookup

open Text Source

/-- Sources that differ in the contents of comments and literals alone, seen from a caret outside of these. -/
structure AlikeAround (source other : List Char) (caret : Nat) : Prop extends AlikeOutside source other where
  outside : inCommentOrLiteral source caret = false

variable (catalog : Catalog) (nonPublic : Bool) {source other : List Char} {caret : Nat}

/-- The contexts of two such sources hold the same but for the sources themselves. -/
theorem contextOf_eq (alike : AlikeAround source other caret) :
    Context.of other caret = { Context.of source caret with source := other } := by
  simp only [Context.of, ← alike.floorBoundary_eq alike.outside, ← alike.blank_eq]

theorem lookupCode_eq_of_unmarked (alike : AlikeAround source other caret)
    (unmarked : hasOptionMarker source caret = false) (unmarkedOther : hasOptionMarker other caret = false) :
    lookupCode none catalog nonPublic source caret = lookupCode none catalog nonPublic other caret := by
  have respond (before : List Char) :
      Scope.respond { catalog, context := Context.of other caret, nonPublic } before =
        Scope.respond { catalog, context := Context.of source caret, nonPublic } before := by
    rw [contextOf_eq alike]
    exact Scope.respond_withSource { catalog, context := Context.of source caret, nonPublic } other before
  have inside : inCommentOrLiteral other (floorBoundary caret source) =
      inCommentOrLiteral source (floorBoundary caret source) := by
    rw [inCommentOrLiteral, ← alike.sameRegions]
    rfl
  rw [lookupCode_of_unmarked catalog nonPublic unmarked, lookupCode_of_unmarked catalog nonPublic unmarkedOther,
    ← alike.floorBoundary_eq alike.outside, ← alike.blank_eq, inside]
  simp only [respond]

/-- No marker stands at the start of a line that begins outside of comments and literals. -/
theorem hasOptionMarker_eq_false (outside : inCommentOrLiteral source (floorBoundary caret source) = false)
    (begins : LineBeginsOutside source (floorBoundary caret source)) : hasOptionMarker source caret = false := by
  have whole := upTo_append_after caret source
  have none := embeddedOption?_eq_none (upTo caret source) (after caret source) (whole.symm ▸ outside)
    (whole.symm ▸ begins)
  simp [hasOptionMarker, none]

/-- For a caret outside of comments and literals, sources that differ in the contents of these alone have
one answer, unless a marker is read in one of them only and the other has an answer. That takes a line of
the caret that begins within a comment or a literal. -/
theorem lookupCode_eq_iff (alike : AlikeAround source other caret) :
    (lookupCode none catalog nonPublic source caret = lookupCode none catalog nonPublic other caret ↔
      (hasOptionMarker source caret = hasOptionMarker other caret ∨
        (lookupCode none catalog nonPublic source caret = .ok .notApplicable ∧
          lookupCode none catalog nonPublic other caret = .ok .notApplicable))) ∧
    (LineBeginsOutside source (floorBoundary caret source) →
      lookupCode none catalog nonPublic source caret = lookupCode none catalog nonPublic other caret) := by
  have place := alike.floorBoundary_eq alike.outside
  refine ⟨⟨fun same => ?_, ?_⟩, fun begins => ?_⟩
  · by_cases marks : hasOptionMarker source caret = hasOptionMarker other caret
    · exact .inl marks
    · rcases Bool.eq_false_or_eq_true (hasOptionMarker source caret) with marked | unmarked
      · have silent := lookupCode_of_optionMarker catalog nonPublic marked
        exact .inr ⟨silent, same.symm.trans silent⟩
      · have marked : hasOptionMarker other caret = true := by simpa [unmarked] using Ne.symm marks
        have silent := lookupCode_of_optionMarker catalog nonPublic marked
        exact .inr ⟨same.trans silent, silent⟩
  · rintro (marks | ⟨silent, silentOther⟩)
    · rcases Bool.eq_false_or_eq_true (hasOptionMarker source caret) with marked | unmarked
      · rw [lookupCode_of_optionMarker catalog nonPublic marked,
          lookupCode_of_optionMarker catalog nonPublic (marks ▸ marked)]
      · exact lookupCode_eq_of_unmarked catalog nonPublic alike unmarked (marks ▸ unmarked)
    · rw [silent, silentOther]
  · -- a caret behind the end of the text may be moved back into a line comment
    rcases Bool.eq_false_or_eq_true (inCommentOrLiteral source (floorBoundary caret source)) with inside | code
    · have insideOther : inCommentOrLiteral other (floorBoundary caret other) = true := by
        rw [← place, inCommentOrLiteral, ← alike.sameRegions]
        exact inside
      rw [lookupCode_of_inCommentOrLiteral catalog nonPublic inside,
        lookupCode_of_inCommentOrLiteral catalog nonPublic insideOther]
    · have codeOther : inCommentOrLiteral other (floorBoundary caret other) = false := by
        rw [← place, inCommentOrLiteral, ← alike.sameRegions]
        exact code
      have beginsOther := alike.lineBeginsOutside (isBoundary_floorBoundary caret source) begins
      exact lookupCode_eq_of_unmarked catalog nonPublic alike (hasOptionMarker_eq_false code begins)
        (hasOptionMarker_eq_false codeOther (place ▸ beginsOther))

/-- Code behind a comment on its line. -/
def commentedCode (comment : String) : List Char := ("/* " ++ comment ++ " */ using ").toList

theorem lookupCode_eq_iff_commented :
    AlikeAround (commentedCode "//$ x") (commentedCode "b;\"é") 18 ∧
      (lookupCode none ⟨{}, []⟩ false (commentedCode "//$ x") 18 =
          lookupCode none ⟨{}, []⟩ false (commentedCode "b;\"é") 18 ↔
        (hasOptionMarker (commentedCode "//$ x") 18 = hasOptionMarker (commentedCode "b;\"é") 18 ∨
          (lookupCode none ⟨{}, []⟩ false (commentedCode "//$ x") 18 = .ok .notApplicable ∧
            lookupCode none ⟨{}, []⟩ false (commentedCode "b;\"é") 18 = .ok .notApplicable))) ∧
      (LineBeginsOutside (commentedCode "//$ x") (floorBoundary 18 (commentedCode "//$ x")) →
        lookupCode none ⟨{}, []⟩ false (commentedCode "//$ x") 18 =
          lookupCode none ⟨{}, []⟩ false (commentedCode "b;\"é") 18) := by
  have comment : regions (commentedCode "//$ x") = [⟨.blockComment, 0, 11⟩] := by decide +kernel
  have alike : AlikeOutside (commentedCode "//$ x") (commentedCode "b;\"é") :=
    .of_regions comment (by decide +kernel) (by decide) (by decide) (by decide) (by decide)
  have outside : inCommentOrLiteral (commentedCode "//$ x") 18 = false := by
    rw [inCommentOrLiteral, comment]
    rfl
  exact ⟨⟨alike, outside⟩, lookupCode_eq_iff ⟨{}, []⟩ false ⟨alike, outside⟩⟩

/-- A line that begins in a block comment, with code behind the comment. -/
def continuedComment (comment : String) : List Char := ("/*\n" ++ comment ++ " */ using ").toList

/-- What a comment holds at the start of a line decides whether the code behind it has an answer. -/
theorem lookupCode_tells_comments_apart :
    AlikeAround (continuedComment "//$") (continuedComment "ab$") 16 ∧
      lookupCode none ⟨{}, []⟩ false (continuedComment "//$") 16 ≠
        lookupCode none ⟨{}, []⟩ false (continuedComment "ab$") 16 := by
  have comment : regions (continuedComment "//$") = [⟨.blockComment, 0, 9⟩] := by decide +kernel
  have alike : AlikeOutside (continuedComment "//$") (continuedComment "ab$") :=
    .of_regions comment (by decide +kernel) (by decide) (by decide) (by decide) (by decide)
  have outside : inCommentOrLiteral (continuedComment "//$") 16 = false := by
    rw [inCommentOrLiteral, comment]
    rfl
  have silent : lookupCode none ⟨{}, []⟩ false (continuedComment "//$") 16 = .ok .notApplicable :=
    lookupCode_of_optionMarker ⟨{}, []⟩ false (by decide)
  have missed : inCommentOrLiteral (continuedComment "ab$") 16 = false := by decide +kernel
  have directive : usingPartial? (blank (continuedComment "ab$")) = some "" := by decide +kernel
  have answered : lookupCode none ⟨{}, []⟩ false (continuedComment "ab$") 16 ≠ .ok .notApplicable :=
    lookupCode_of_directive ⟨{}, []⟩ false (by decide) missed directive
  exact ⟨⟨alike, outside⟩, fun same => answered (same ▸ silent)⟩

end Typeahead.Lookup
