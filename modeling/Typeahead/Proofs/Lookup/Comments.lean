import Typeahead.Proofs.Lookup.BlankedText
import Typeahead.Proofs.Source.Inside

namespace Typeahead.Lookup

open Text Source

theorem lookupCode_of_inCommentOrLiteral (catalog : Catalog) (nonPublic : Bool) {source : List Char} {caret : Nat}
    (inside : inCommentOrLiteral source (floorBoundary caret source) = true) :
    lookupCode none catalog nonPublic source caret = .ok .notApplicable := by
  have parts : cut (Context.of source caret).caret (Context.of source caret).source =
      .ok (upTo caret source, after caret source) := cut_floorBoundary caret source
  have found : inCommentOrLiteral (Context.of source caret).source (Context.of source caret).caret = true := inside
  unfold lookupCode
  simp only [parts, found, bind, Except.bind, pure, Except.pure, if_true]
  split <;> rfl

/-- A caret is moved back to a boundary, with the same text before it. -/
theorem upTo_floorBoundary (caret : Nat) (source : List Char) :
    upTo (floorBoundary caret source) source = upTo caret source ∧
      after (floorBoundary caret source) source = after caret source := by
  have whole := upTo_append_after caret source
  have before := upTo_append (upTo caret source) (after caret source)
  have behind := after_append (upTo caret source) (after caret source)
  rw [whole] at before behind
  exact ⟨before, behind⟩

/-- At a caret in a comment or a literal there is no answer, except at the end of a text that leaves a
block comment open. -/
theorem lookupCode_inside_iff (catalog : Catalog) (nonPublic : Bool) {source : List Char} {caret : Nat}
    (within : caret ≤ utf8Length source) (unbroken : Mode.code.isUnbroken (upTo caret source) = true)
    (inside : InBlockComment (upTo caret source) ∨
      (modeAfter (upTo caret source)).isInside (after caret source) = true) :
    (inCommentOrLiteral source caret = true ∧
        lookupCode none catalog nonPublic source caret = .ok .notApplicable) ↔
      ¬ (after caret source = [] ∧ InBlockComment (upTo caret source)) := by
  have isInside : (modeAfter (upTo caret source)).isInside (after caret source) = true := by
    rcases inside with comment | isInside
    · obtain ⟨star, inComment⟩ := modeAfter_eq_blockComment_iff.mpr comment
      rw [inComment]
      rfl
    · exact isInside
  have answer := inCommentOrLiteral_eq_answer within unbroken
  rw [Mode.answer, isInside, Bool.true_and] at answer
  have atBoundary : inCommentOrLiteral source (floorBoundary caret source) = inCommentOrLiteral source caret := by
    obtain ⟨before, behind⟩ := upTo_floorBoundary caret source
    have moved := inCommentOrLiteral_eq_answer
      (Nat.le_trans (floorBoundary_le caret source) within) (before.symm ▸ unbroken)
    rw [moved, before, behind, inCommentOrLiteral_eq_answer within unbroken]
  constructor
  · rintro ⟨found, -⟩ ⟨atEnd, comment⟩
    obtain ⟨star, inComment⟩ := modeAfter_eq_blockComment_iff.mpr comment
    rw [answer, atEnd, inComment] at found
    simp [Mode.isBlockComment] at found
  · intro elsewhere
    have found : inCommentOrLiteral source caret = true := by
      rw [answer, Bool.not_eq_true', Bool.and_eq_false_iff]
      by_cases atEnd : after caret source = []
      · refine .inl (Bool.eq_false_iff.mpr fun inComment => elsewhere ⟨atEnd, ?_⟩)
        exact modeAfter_eq_blockComment_iff.mp (Mode.isBlockComment_iff.mp inComment)
      · exact .inr (by simpa using atEnd)
    exact ⟨found, lookupCode_of_inCommentOrLiteral catalog nonPublic (atBoundary.trans found)⟩

/-- Behind a quote of a character, a quote behind a backslash and two quotes of a verbatim string, none of
which ends what it stands in. -/
def quotedCode : List Char := "class X \x7b char a = '\"'; string b = \"\\\"\"; string c = @\"d\"\"e".toList

theorem lookupCode_inside_iff_verbatim :
    utf8Length quotedCode ≤ utf8Length quotedCode ∧
      Mode.code.isUnbroken (upTo (utf8Length quotedCode) quotedCode) = true ∧
      (modeAfter (upTo (utf8Length quotedCode) quotedCode)).isInside
        (after (utf8Length quotedCode) quotedCode) = true ∧
      inCommentOrLiteral quotedCode (utf8Length quotedCode) = true ∧
      lookupCode none ⟨{}, []⟩ false quotedCode (utf8Length quotedCode) = .ok .notApplicable := by
  have unbroken : Mode.code.isUnbroken (upTo (utf8Length quotedCode) quotedCode) = true := by decide
  have mode : modeAfter (upTo (utf8Length quotedCode) quotedCode) = .verbatim := by decide
  have inside : (modeAfter (upTo (utf8Length quotedCode) quotedCode)).isInside
      (after (utf8Length quotedCode) quotedCode) = true := by
    rw [mode]
    rfl
  have noComment : ¬ InBlockComment (upTo (utf8Length quotedCode) quotedCode) := by
    rw [← modeAfter_eq_blockComment_iff, mode]
    rintro ⟨star, impossible⟩
    exact Mode.noConfusion impossible
  have silent := (lookupCode_inside_iff ⟨{}, []⟩ false Nat.le.refl unbroken (.inr inside)).mpr
    fun exceptional => noComment exceptional.2
  exact ⟨Nat.le.refl, unbroken, inside, silent⟩

/-- A caret at the end of the text that is inside by the rules of the language and has an answer nevertheless. -/
def AnswersInside (source : List Char) : Prop :=
  (modeAfter source).isInside [] = true ∧ inCommentOrLiteral source (utf8Length source) = false ∧
    lookupCode none ⟨{}, []⟩ false source (utf8Length source) ≠ .ok .notApplicable

/-- At the end of an open block comment. -/
def openComment : List Char := "using /* ".toList

/-- In a verbatim string that begins on the line behind a literal that ends in a backslash. -/
def brokenLiteral : List Char := "\"a\\\n@\"\nusing ".toList

/-- A directive is completed at both places. -/
theorem lookupCode_answers_inside : AnswersInside openComment ∧ AnswersInside brokenLiteral := by
  have missed : inCommentOrLiteral openComment (utf8Length openComment) = false := by decide +kernel
  have missedToo : inCommentOrLiteral brokenLiteral (utf8Length brokenLiteral) = false := by decide +kernel
  have directive : usingPartial? (blank openComment) = some "" := by decide +kernel
  have directiveToo : usingPartial? (blank brokenLiteral) = some "" := by decide +kernel
  exact ⟨⟨by decide, missed, lookupCode_of_directive ⟨{}, []⟩ false (by decide) missed directive⟩,
    by decide, missedToo, lookupCode_of_directive ⟨{}, []⟩ false (by decide) missedToo directiveToo⟩

end Typeahead.Lookup
