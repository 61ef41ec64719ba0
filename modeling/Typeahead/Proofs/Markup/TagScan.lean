import Typeahead.Proofs.Text.Place
import Typeahead.Markup.Target

namespace Typeahead.Markup

open Text

/-- Every bracket that opens is followed by one that closes. -/
def TagsComplete (text : List Char) : Prop := ∀ before after, text = before ++ '<' :: after → '>' ∈ after

theorem tagsComplete_nil : TagsComplete [] := by
  intro before after split
  simp at split

theorem TagsComplete.tail {c : Char} {cs : List Char} (complete : TagsComplete (c :: cs)) : TagsComplete cs :=
  fun before after split => complete (c :: before) after (by simp [split])

theorem TagsComplete.append {a b : List Char} (first : TagsComplete a) (second : TagsComplete b) :
    TagsComplete (a ++ b) := by
  intro before after split
  rcases List.append_eq_append_iff.mp split with ⟨front, -, inSecond⟩ | ⟨back, inFirst, behind⟩
  · exact second front after inSecond
  · cases back with
    | nil => exact second [] after (by simpa using behind.symm)
    | cons c back =>
      obtain ⟨rfl, rfl⟩ := List.cons.inj behind
      exact List.mem_append_left b (first before back inFirst)

theorem tagsComplete_of_getLast {text : List Char} (last : text.getLast? = some '>') : TagsComplete text := by
  rintro before after rfl
  cases after with
  | nil => simp at last
  | cons c after => exact List.mem_of_getLast? (by simpa using last)

/-- The scan of a text in two parts, with no tag or an incomplete one open before the first. -/
theorem tagTextsFrom_append {text : List Char} (complete : TagsComplete text) (rest : List Char)
    (inside : Option (List Char)) (ends : inside.isSome = true → '>' ∈ text) :
    tagTextsFrom inside (text ++ rest) = tagTextsFrom inside text ++ tagTextsFrom none rest := by
  induction text generalizing inside with
  | nil =>
    cases inside with
    | none => rfl
    | some read => exact absurd (ends rfl) List.not_mem_nil
  | cons c text ih =>
    cases inside with
    | none =>
      rw [List.cons_append, tagTextsFrom, tagTextsFrom]
      refine ih complete.tail _ fun opened => ?_
      by_cases bracket : c = '<'
      · exact complete [] text (by rw [bracket]; rfl)
      · simp [bracket] at opened
    | some read =>
      rw [List.cons_append, tagTextsFrom, tagTextsFrom]
      by_cases closing : c = '>'
      · rw [if_pos closing, if_pos closing, List.cons_append,
          ih complete.tail none fun opened => Bool.noConfusion opened]
      · rw [if_neg closing, if_neg closing]
        refine ih complete.tail _ fun _ => ?_
        exact (List.mem_cons.mp (ends rfl)).resolve_left fun same => closing same.symm

theorem tagTexts_append {text : List Char} (complete : TagsComplete text) (rest : List Char) :
    tagTexts (text ++ rest) = tagTexts text ++ tagTexts rest :=
  tagTextsFrom_append complete rest none fun opened => Bool.noConfusion opened

theorem tagTexts_plain {text : List Char} (plain : '<' ∉ text) (rest : List Char) :
    tagTexts (text ++ rest) = tagTexts rest := by
  induction text with
  | nil => rfl
  | cons c text ih =>
    have other : c ≠ '<' := fun bracket => plain (bracket ▸ List.mem_cons_self)
    rw [List.cons_append, tagTexts, tagTextsFrom, if_neg other]
    exact ih fun member => plain (List.mem_cons_of_mem _ member)

theorem tagTextsFrom_some {inner : List Char} (unclosed : '>' ∉ inner) (read rest : List Char) :
    tagTextsFrom (some read) (inner ++ rest) = tagTextsFrom (some (inner.reverse ++ read)) rest := by
  induction inner generalizing read with
  | nil => rfl
  | cons c inner ih =>
    have other : c ≠ '>' := fun bracket => unclosed (bracket ▸ List.mem_cons_self)
    rw [List.cons_append, tagTextsFrom, if_neg other, ih fun member => unclosed (List.mem_cons_of_mem _ member)]
    simp

/-- A tag is read up to its first closing bracket. -/
theorem tagTexts_tag {inner : List Char} (unclosed : '>' ∉ inner) (rest : List Char) :
    tagTexts ('<' :: (inner ++ '>' :: rest)) = inner :: tagTexts rest := by
  rw [tagTexts, tagTextsFrom, if_pos rfl, tagTextsFrom_some unclosed, tagTextsFrom, if_pos rfl, List.append_nil,
    List.reverse_reverse]
  rfl

/-- An incomplete tag is not read. -/
theorem tagTexts_incomplete {inner : List Char} (unclosed : '>' ∉ inner) : tagTexts ('<' :: inner) = [] := by
  have read := tagTextsFrom_some unclosed [] []
  rw [List.append_nil] at read
  rw [tagTexts, tagTextsFrom, if_pos rfl, read]
  rfl

namespace Dictionary

/-- The open elements behind a text are those that the rest of the text makes of them. -/
theorem openElements_append (d : Dictionary) {text : List Char} (complete : TagsComplete text) (rest : List Char) :
    d.openElements (text ++ rest) = (tagTexts rest).foldl d.afterTag (d.openElements text) := by
  rw [openElements, tagTexts_append complete, List.foldl_append]
  rfl

theorem openElements_append_congr (d : Dictionary) {a b : List Char} (first : TagsComplete a)
    (second : TagsComplete b) (same : d.openElements a = d.openElements b) (rest : List Char) :
    d.openElements (a ++ rest) = d.openElements (b ++ rest) := by
  rw [d.openElements_append first, d.openElements_append second, same]

end Dictionary

section Comments

variable {p body : List Char}

def comment (body : List Char) : List Char := "<!--".toList ++ (body ++ "-->".toList)

/-- What the scan reads of a comment: the text behind its first closing bracket, to its end. -/
def readOfComment (body : List Char) : List Char := ((body ++ "-->".toList).dropWhile (· ≠ '>')).drop 1

theorem exists_firstBracket (body : List Char) :
    ∃ earlier, body ++ "-->".toList = earlier ++ '>' :: readOfComment body ∧ '>' ∉ earlier := by
  have closes : '>' ∈ body ++ "-->".toList := by simp
  obtain ⟨earlier, later, split, absent⟩ := List.eq_append_cons_of_mem closes
  have passes : ∀ c ∈ earlier, (decide (c ≠ '>')) = true := by
    intro c member
    rw [decide_eq_true_eq]
    exact fun bracket => absent (bracket ▸ member)
  have read : readOfComment body = later := by
    rw [readOfComment, split, List.dropWhile_append_of_pos passes]
    rfl
  exact ⟨earlier, by rw [read, split], absent⟩

theorem tagsComplete_readOfComment (body : List Char) : TagsComplete (readOfComment body) := by
  obtain ⟨earlier, split, -⟩ := exists_firstBracket body
  cases read : readOfComment body with
  | nil => exact tagsComplete_nil
  | cons c later =>
    apply tagsComplete_of_getLast
    have last := congrArg List.getLast? split
    rw [read] at last
    simpa using last.symm

/-- The comment itself is one declaration that is passed over; all that matters of it is what is read behind
its first closing bracket. -/
theorem Dictionary.openElements_comment (d : Dictionary) (complete : TagsComplete p) (body q : List Char) :
    d.openElements (p ++ (comment body ++ q)) = d.openElements (p ++ (readOfComment body ++ q)) := by
  obtain ⟨earlier, split, unclosed⟩ := exists_firstBracket body
  have inner : '>' ∉ "!--".toList ++ earlier := by simp [unclosed]
  have whole : comment body ++ q = '<' :: (("!--".toList ++ earlier) ++ '>' :: (readOfComment body ++ q)) := by
    rw [comment, split]
    simp
  rw [d.openElements_append complete, d.openElements_append complete, whole, tagTexts_tag inner, List.foldl_cons]
  rfl

/-- A comment adds to the open elements what the tags behind its first closing bracket add. So it changes nothing,
whatever follows, exactly when they change nothing, as when no bracket opens there. -/
theorem Dictionary.openElements_comment_iff (d : Dictionary) (complete : TagsComplete p) (body : List Char) :
    ((∀ q, d.openElements (p ++ (comment body ++ q)) = d.openElements (p ++ q)) ↔
        d.openElements (p ++ readOfComment body) = d.openElements p) ∧
      ('<' ∉ readOfComment body → ∀ q, d.openElements (p ++ (comment body ++ q)) = d.openElements (p ++ q)) := by
  have exact : (∀ q, d.openElements (p ++ (comment body ++ q)) = d.openElements (p ++ q)) ↔
      d.openElements (p ++ readOfComment body) = d.openElements p := by
    constructor
    · intro neutral
      have here := neutral []
      rwa [d.openElements_comment complete, List.append_nil, List.append_nil] at here
    · intro same q
      rw [d.openElements_comment complete, ← List.append_assoc]
      exact d.openElements_append_congr (complete.append (tagsComplete_readOfComment body)) complete same q
  refine ⟨exact, fun plain => exact.mpr ?_⟩
  have none := tagTexts_plain plain []
  rw [List.append_nil] at none
  rw [d.openElements_append complete, none]
  rfl

/-- A comment with one tag in it. -/
theorem Dictionary.openElements_comment_iff_list :
    let d := Dictionary.of .html5
    TagsComplete "<ul>".toList ∧ '<' ∉ readOfComment " <b> ".toList ∧
      ∀ q, d.openElements ("<ul>".toList ++ (comment " <b> ".toList ++ q)) = d.openElements ("<ul>".toList ++ q) := by
  intro d
  have complete : TagsComplete "<ul>".toList := tagsComplete_of_getLast rfl
  have plain : '<' ∉ readOfComment " <b> ".toList := by decide
  exact ⟨complete, plain, (d.openElements_comment_iff complete _).2 plain⟩

/-- The second tag in a comment opens an element. -/
theorem Dictionary.openElements_of_comment :
    let d := Dictionary.of .html5
    d.openElements ("<ul>".toList ++ comment " <b><i> ".toList) = ["i", "ul"] ∧
      d.openElements "<ul>".toList = ["ul"] := by
  decide +kernel

end Comments

end Typeahead.Markup
