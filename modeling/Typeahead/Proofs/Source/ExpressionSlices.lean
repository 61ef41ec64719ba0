import Typeahead.Proofs.Source.DeclarationSlices
import Typeahead.Proofs.Source.Target
import Typeahead.Source.Chain

namespace Typeahead.Source

open Text

/-- The last line of a text begins behind its last line feed. -/
theorem slice_line (text : List Char) :
    ∃ start, lineStart text (utf8Length text) = .ok start ∧
      slice start (utf8Length text) text = .ok (lastField (· == '\n') text) := by
  have whole := cut_append text []
  rw [List.append_nil] at whole
  obtain ⟨front, split⟩ := lastField_suffix (· == '\n') text
  have size := congrArg utf8Length split
  rw [utf8Length_append] at size
  refine ⟨utf8Length front, ?_, slice_of_append _ [] (by rw [split, List.append_nil]) rfl size⟩
  rw [lineStart, whole]
  simp only [Except.map, Except.ok.injEq]
  omega

theorem suffix_of_embeddedOption? {text typed : List Char} {marker : Char}
    (option : embeddedOption? text = some (marker, typed)) : typed <:+ text := by
  unfold embeddedOption? at option
  split at option
  · next marker rest line =>
    split at option
    · simp only [Option.some.injEq, Prod.mk.injEq] at option
      obtain ⟨rfl, rfl⟩ := option
      have behind : rest <:+ trimStart (lastField (· == '\n') text) := by
        rw [line]
        exact ⟨['/', '/', marker], rfl⟩
      exact behind.trans ((List.dropWhile_suffix _).trans (lastField_suffix _ text))
    · simp at option
  · simp at option

/-- What follows the marker of an option ends the line. -/
theorem slice_embeddedOption {text typed : List Char} {marker : Char}
    (option : embeddedOption? text = some (marker, typed)) :
    ∃ start, slice start (utf8Length text) text = .ok typed := by
  have suffix : typed <:+ text := suffix_of_embeddedOption? option
  obtain ⟨front, split⟩ := suffix
  refine ⟨utf8Length front, slice_of_append _ [] (by rw [split, List.append_nil]) rfl ?_⟩
  rw [← utf8Length_append, split]

/-- The text around an occurrence of a word. -/
theorem exists_of_mem_wordPlaces {word text : List Char} {p : Place} (member : p ∈ wordPlaces word text) :
    ∃ before, text = before ++ word ++ p.rest.drop word.length ∧ utf8Length before = p.offset := by
  obtain ⟨inText, rest, found⟩ := exists_rest_of_mem_wordPlaces member
  obtain ⟨whole, offset⟩ := mem_places inText
  refine ⟨p.before.reverse, ?_, offset.symm⟩
  rw [found, List.drop_left, List.append_assoc, ← found]
  exact whole

/-- The text between the word `using` and its semicolon, and the place behind the semicolon. -/
theorem slice_usingBody {text body later : List Char} {c : Char} {p : Place}
    (member : p ∈ wordPlaces "using".toList text)
    (ends : breakFirst (· == ';') (p.rest.drop 5) = some (body, c, later)) :
    slice (p.offset + 5) (p.offset + 5 + utf8Length body) text = .ok body ∧
      IsBoundary (p.offset + 5 + utf8Length body + 1) text := by
  obtain ⟨before, whole, offset⟩ := exists_of_mem_wordPlaces member
  obtain ⟨rest, isSemicolon, -⟩ := eq_append_of_breakFirst ends
  have semicolon : c.utf8Size = 1 := by
    rw [beq_iff_eq] at isSemicolon
    rw [isSemicolon]
    rfl
  have word : utf8Length "using".toList = 5 := rfl
  have split : text = (before ++ "using".toList) ++ body ++ c :: later := by
    rw [List.append_assoc, ← rest]
    exact whole
  have start : utf8Length (before ++ "using".toList) = p.offset + 5 := by
    rw [utf8Length_append, offset, word]
  refine ⟨slice_of_append _ _ split start rfl, before ++ "using".toList ++ body ++ [c], later, ?_, ?_⟩
  · rw [split]
    simp
  · rw [utf8Length_append, utf8Length_append, start, utf8Length_cons, semicolon, utf8Length_nil]

/-- The name of a namespace declaration, behind the word and the blanks after it. -/
theorem slice_namespaceName {text : List Char} {p : Place} (member : p ∈ wordPlaces "namespace".toList text) :
    let rest := p.rest.drop 9
    let name := (trimStart rest).takeWhile isDottedNameChar
    let start := p.offset + 9 + utf8Length (rest.takeWhile isBlank)
    slice start (start + utf8Length name) text = .ok name := by
  intro rest name start
  obtain ⟨before, whole, offset⟩ := exists_of_mem_wordPlaces member
  have word : utf8Length "namespace".toList = 9 := rfl
  have blanks : rest.takeWhile isBlank ++ trimStart rest = rest := List.takeWhile_append_dropWhile
  have named : name ++ (trimStart rest).dropWhile isDottedNameChar = trimStart rest :=
    List.takeWhile_append_dropWhile
  refine slice_of_append (before ++ "namespace".toList ++ rest.takeWhile isBlank)
    ((trimStart rest).dropWhile isDottedNameChar) ?_ ?_ rfl
  · rw [List.append_assoc _ name, named, List.append_assoc _ _ (trimStart rest), blanks]
    exact whole
  · simp only [utf8Length_append, offset, word, start]

/-- The expression that is being typed stands at the end of the text; the chain and the last part stand
around its last dot. -/
theorem Target.slice_parts (text : List Char) :
    (∃ start, slice start (utf8Length text) text = .ok (Target.of text).entity.toList) ∧
      ((Target.of text).chain = "" ∧ (Target.of text).entity = (Target.of text).lookAhead ∨
        ∃ dot, slice 0 dot (Target.of text).entity.toList = .ok (Target.of text).chain.toList ∧
          slice dot (dot + 1) (Target.of text).entity.toList = .ok ['.'] ∧
          slice (dot + 1) (Target.of text).entity.utf8ByteSize (Target.of text).entity.toList =
            .ok (Target.of text).lookAhead.toList) := by
  constructor
  · obtain ⟨front, whole, -⟩ := Target.eq_append_entity text
    have size := congrArg utf8Length whole
    rw [utf8Length_append] at size
    exact ⟨_, slice_of_append _ [] (by rw [List.append_nil]; exact whole) rfl size.symm⟩
  · rcases Target.entity_eq text with split | whole
    · right
      have one : ('.' : Char).utf8Size = 1 := rfl
      have size := congrArg utf8Length split
      rw [utf8Length_append, utf8Length_cons, utf8Length_toList, one] at size
      refine ⟨utf8Length (Target.of text).chain.toList, ?_, ?_, ?_⟩
      · exact slice_of_append [] ('.' :: (Target.of text).lookAhead.toList)
          (by rw [List.nil_append]; exact split) rfl (Nat.zero_add _)
      · exact slice_of_append (Target.of text).chain.toList (Target.of text).lookAhead.toList
          (by rw [split]; simp) rfl (by simp [one])
      · exact slice_of_append ((Target.of text).chain.toList ++ ['.']) []
          (by rw [split]; simp) (by simp [one]) (by omega)
    · exact .inl whole

namespace ChainReader

@[simp] theorem call_endName (r : ChainReader) : r.endName.call = r.call := by
  unfold endName
  split <;> rfl

@[simp] theorem call_changeLast (r : ChainReader) (change : Segment → Segment) :
    (r.changeLast change).call = r.call := by
  unfold changeLast
  split <;> rfl

/-- What a character does to the argument list being read: it becomes part of it, opens a new one, ends
it, or parts two of its arguments. -/
theorem call_step (r : ChainReader) (c : Char) :
    (r.step c).call = (r.noteArgument c).call ∨ c = '(' ∧ (r.step c).call = some ⟨0, true⟩ ∨
      (r.step c).call = none ∨
      c = ',' ∧ ∃ call, r.call = some call ∧ (r.step c).call = some ⟨call.commas + 1, false⟩ := by
  unfold step
  split
  · left
    simp only
    split
    · rfl
    · split <;> rfl
  · split
    · exact .inl (by simp)
    · split
      · next opens =>
        split
        · exact .inr (.inl ⟨opens, rfl⟩)
        · exact .inl rfl
      · split
        · split
          · exact .inr (.inr (.inl rfl))
          · exact .inl rfl
        · split
          · simp only
            split
            · exact .inl (by simp)
            · exact .inl rfl
          · split
            · exact .inl rfl
            · split
              · next call _ reading =>
                split
                · next comma => exact .inr (.inr (.inr ⟨comma, call, reading, rfl⟩))
                · exact .inl rfl
              · simp only
                split
                · exact .inl (by simp)
                · split <;> exact .inl rfl
              · exact .inl rfl

end ChainReader

/-- The text behind the parenthesis that opened a call; it is all blank exactly when the reader has noted
so. -/
def OpenCallAt (read : List Char) (call : OpenCall) : Prop :=
  ∃ before arguments, read = before ++ '(' :: arguments ∧ call.blank = arguments.all isBlank

theorem openCallAt_step {read : List Char} {r : ChainReader} {c : Char}
    (opened : ∀ call, r.call = some call → OpenCallAt read call) :
    ∀ call, (r.step c).call = some call → OpenCallAt (read ++ [c]) call := by
  intro call reading
  rcases r.call_step c with noted | ⟨opens, new⟩ | ended | ⟨comma, earlier, before, more⟩
  · rw [reading, ChainReader.noteArgument] at noted
    obtain ⟨earlier, was, rfl⟩ := Option.map_eq_some_iff.mp noted.symm
    obtain ⟨before, arguments, rfl, blank⟩ := opened earlier was
    exact ⟨before, arguments ++ [c], by simp, by simp [blank]⟩
  · rw [reading, Option.some.injEq] at new
    subst new
    exact ⟨read, [], by rw [opens], rfl⟩
  · simp [ended] at reading
  · rw [reading, Option.some.injEq] at more
    subst more
    obtain ⟨start, arguments, rfl, -⟩ := opened earlier before
    have noBlank : isBlank ',' = false := by decide
    exact ⟨start, arguments ++ [c], by simp, by simp [comma, noBlank]⟩

theorem openCallAt_foldl {read more : List Char} {r : ChainReader}
    (opened : ∀ call, r.call = some call → OpenCallAt read call) :
    ∀ call, (more.foldl ChainReader.step r).call = some call → OpenCallAt (read ++ more) call := by
  induction more generalizing read r with
  | nil => simpa using opened
  | cons c more ih =>
    have further := ih (openCallAt_step (c := c) opened)
    rwa [List.append_assoc, List.singleton_append] at further

/-- The arguments of a call that is open at the end of a text are the text behind its parenthesis. -/
theorem slice_openCall {read rest : List Char} {call : OpenCall}
    (reading : (read.foldl ChainReader.step {}).call = some call) :
    ∃ start arguments, slice start (utf8Length read) (read ++ rest) = .ok arguments ∧
      call.blank = arguments.all isBlank := by
  have opened : OpenCallAt ([] ++ read) call := openCallAt_foldl (by simp) call reading
  obtain ⟨before, arguments, whole, blank⟩ := opened
  rw [List.nil_append] at whole
  have one : ('(' : Char).utf8Size = 1 := rfl
  refine ⟨utf8Length before + 1, arguments,
    slice_of_append (before ++ ['(']) rest (by simp [whole]) (by simp [one]) ?_, blank⟩
  rw [whole, utf8Length_append, utf8Length_cons, one]
  omega

end Typeahead.Source
