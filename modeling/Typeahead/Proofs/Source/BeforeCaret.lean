import Typeahead.Proofs.Source.Inside
import Typeahead.Source.Context
import Typeahead.Source.Target

namespace Typeahead.Source

open Text

theorem blockBody_ne_nil {cs : List Char} (ended : (blockBody cs).2 ≠ []) : (blockBody cs).1 ≠ [] := by
  fun_cases blockBody cs with
  | case1 => exact absurd rfl ended
  | case2 rest => exact List.cons_ne_nil _ _
  | case3 c rest other body later read => exact List.cons_ne_nil _ _

/-- A block comment that has ended is read alike whatever follows it. -/
theorem blockBody_append_of_ended {cs : List Char} (ended : (blockBody cs).2 ≠ []) (beyond : List Char) :
    blockBody ((blockBody cs).1 ++ beyond) = ((blockBody cs).1, beyond) := by
  fun_induction blockBody cs with
  | case1 => exact absurd rfl ended
  | case2 rest => rfl
  | case3 c rest other body later read ih =>
    have whole := blockBody_append rest
    have nonempty : (blockBody rest).2 ≠ [] → (blockBody rest).1 ≠ [] := blockBody_ne_nil
    rw [read] at ih whole nonempty
    have goesOn : ∀ more, c = '*' → body ++ beyond = '/' :: more → False := by
      intro more star slash
      obtain ⟨d, front, rfl⟩ := List.exists_cons_of_ne_nil (nonempty ended)
      obtain ⟨rfl, -⟩ := List.cons.inj slash
      exact other _ star whole.symm
    rw [List.cons_append, blockBody.eq_3 _ _ goesOn, ih ended]

/-- A literal that is not verbatim is read alike as long as the same character ends it. -/
theorem ordinaryBody_append_of_ended {quote ending : Char} {cs later : List Char}
    (ended : (ordinaryBody quote cs).2 = ending :: later) (beyond : List Char) :
    ordinaryBody quote ((ordinaryBody quote cs).1 ++ ending :: beyond) =
      ((ordinaryBody quote cs).1, ending :: beyond) := by
  have stops := ordinaryBody_head? quote cs ending (by simp [ended])
  fun_induction ordinaryBody quote cs with
  | case1 => simp at ended
  | case2 => simp at ended
  | case3 c rest body after read ih =>
    rw [read] at ih
    rw [List.cons_append, List.cons_append, ordinaryBody.eq_3, ih ended]
  | case4 c rest noEnd noEscape _ =>
    obtain ⟨rfl, -⟩ := List.cons.inj ended
    have plain : c ≠ '\\' := by
      rintro rfl
      cases rest with
      | nil => exact noEnd rfl rfl
      | cons d rest => exact noEscape d rest rfl rfl
    rw [List.nil_append, ordinaryBody.eq_4 _ _ _ (fun escape => absurd escape plain)
      (fun _ _ escape => absurd escape plain), if_pos stops]
  | case5 c rest noEnd noEscape goesOn body after read ih =>
    rw [read] at ih
    have plain : c ≠ '\\' := by
      rintro rfl
      cases rest with
      | nil => exact noEnd rfl rfl
      | cons d rest => exact noEscape d rest rfl rfl
    rw [List.cons_append, ordinaryBody.eq_4 _ _ _ (fun escape => absurd escape plain)
      (fun _ _ escape => absurd escape plain), if_neg goesOn, ih ended]

/-- A verbatim string is read alike as long as its closing quote is not doubled. -/
theorem verbatimBody_append_of_ended {cs later : List Char} (ended : (verbatimBody cs).2 = '"' :: later)
    {beyond : List Char} (single : beyond.head? ≠ some '"') :
    verbatimBody ((verbatimBody cs).1 ++ '"' :: beyond) = ((verbatimBody cs).1, '"' :: beyond) := by
  fun_induction verbatimBody cs with
  | case1 => simp at ended
  | case2 rest body after read ih =>
    rw [read] at ih
    rw [List.cons_append, List.cons_append, verbatimBody.eq_2, ih ended]
  | case3 rest _ =>
    have noDouble : ∀ more, '"' = '"' → beyond = '"' :: more → False := by
      rintro more - rfl
      exact single rfl
    rw [List.nil_append, verbatimBody.eq_3 _ _ noDouble, if_pos rfl]
  | case4 c rest other plain body after read ih =>
    rw [read] at ih
    rw [List.cons_append, verbatimBody.eq_3 _ _ (fun _ quote => absurd quote plain), if_neg plain, ih ended]

/-- What is read before a caret outside of comments and literals is read alike without the text behind the caret. -/
def KeepsFront (cs : List Char) : Prop :=
  ∀ (offset : Nat) (before rest : List Char), cs = before ++ rest →
    containedIn offset (pieces cs) (offset + utf8Length before) = false → blank before <+: blank cs

theorem containedIn_append (offset : Nat) (ps qs : List Piece) (caret : Nat) :
    containedIn offset (ps ++ qs) caret =
      (containedIn offset ps caret || containedIn (offset + utf8Length (ps.flatMap Piece.text)) qs caret) := by
  rw [containedIn, regionsFrom_append, List.any_append]
  rfl

/-- The same first pieces, and behind them a text of which the caret leaves a first part. -/
theorem blanked_prefix (ps : List Piece) {front beyond rest : List Char} (text : ps.flatMap Piece.text = front)
    (ih : KeepsFront (beyond ++ rest)) {offset : Nat}
    (outside : containedIn offset (ps ++ pieces (beyond ++ rest)) (offset + utf8Length (front ++ beyond)) = false) :
    (ps ++ pieces beyond).flatMap Piece.blanked <+: (ps ++ pieces (beyond ++ rest)).flatMap Piece.blanked := by
  rw [containedIn_append, Bool.or_eq_false_iff, text, utf8Length_append, ← Nat.add_assoc] at outside
  rw [List.flatMap_append, List.flatMap_append, List.prefix_append_right_inj]
  exact ih _ beyond rest rfl outside.2

theorem blank_nil : blank [] = [] := by rw [blank, pieces, List.flatMap_nil]

theorem utf8Length_pos {cs : List Char} (nonempty : cs ≠ []) : 0 < utf8Length cs := by
  obtain ⟨c, rest, rfl⟩ := List.exists_cons_of_ne_nil nonempty
  exact Nat.lt_of_lt_of_le c.utf8Size_pos (Nat.le_add_right ..)

theorem keepsFront_nil : KeepsFront [] := by
  intro offset before rest whole _
  obtain ⟨rfl, -⟩ := List.append_eq_nil_iff.mp whole.symm
  exact List.prefix_rfl

/-- A comment that is read alike whatever is left of the text behind it. -/
theorem keepsFront_comment (kind : RegionKind) {text later : List Char}
    (read : ∀ beyond rest, later = beyond ++ rest → pieces (text ++ beyond) = [⟨some kind, text⟩] ++ pieces beyond)
    (ih : KeepsFront later) : KeepsFront (text ++ later) := by
  intro offset before rest whole outside
  rw [read later [] (by simp)] at outside
  have behind (beyond : List Char) (split : later = beyond ++ rest) (same : before = text ++ beyond) :
      blank before <+: blank (text ++ later) := by
    subst split same
    rw [blank, blank, read beyond rest rfl, read (beyond ++ rest) [] (by simp)]
    exact blanked_prefix _ (by simp) ih outside
  rcases append_eq_append_cases whole with ⟨mid, comment, split⟩ | ⟨beyond, -, same, split⟩
  · by_cases atStart : before = []
    · rw [atStart, blank_nil]
      exact List.nil_prefix
    by_cases atEnd : mid = []
    · subst atEnd
      exact behind [] split.symm (by simpa using comment.symm)
    · have positive := utf8Length_pos atStart
      have more := utf8Length_pos atEnd
      have length := congrArg utf8Length comment
      rw [utf8Length_append] at length
      rw [List.singleton_append, containedIn_cons, Bool.or_eq_false_iff] at outside
      cases kind <;> simp [Region.contains] at outside <;> omega
  · exact behind beyond split same

theorem keepsFront_lineComment {rest : List Char} (ih : KeepsFront (rest.dropWhile (· ≠ '\n'))) :
    KeepsFront ('/' :: '/' :: rest) := by
  have parts : '/' :: '/' :: rest = ('/' :: '/' :: rest.takeWhile (· ≠ '\n')) ++ rest.dropWhile (· ≠ '\n') := by
    rw [List.cons_append, List.cons_append, List.takeWhile_append_dropWhile]
  rw [parts]
  refine keepsFront_comment .lineComment (fun beyond later split => ?_) ih
  have sameLine : ∀ c ∈ rest.takeWhile (· ≠ '\n'), decide (c ≠ '\n') = true := fun c inside =>
    List.all_eq_true.mp List.all_takeWhile c inside
  have stops : beyond.takeWhile (· ≠ '\n') = [] ∧ beyond.dropWhile (· ≠ '\n') = beyond := by
    cases beyond with
    | nil => exact ⟨rfl, rfl⟩
    | cons c beyond =>
      have lineBreak : c = '\n' := head?_dropWhile_lineBreak rest c (by rw [split]; rfl)
      simp [lineBreak]
  rw [List.cons_append, List.cons_append, pieces, List.takeWhile_append_of_pos sameLine,
    List.dropWhile_append_of_pos sameLine, stops.1, stops.2, List.append_nil]
  rfl

theorem keepsFront_blockComment {rest : List Char} (ih : KeepsFront (blockBody rest).2) :
    KeepsFront ('/' :: '*' :: rest) := by
  have parts : '/' :: '*' :: rest = ('/' :: '*' :: (blockBody rest).1) ++ (blockBody rest).2 := by
    rw [List.cons_append, List.cons_append, blockBody_append]
  rw [parts]
  refine keepsFront_comment .blockComment (fun beyond later split => ?_) ih
  have read : blockBody ((blockBody rest).1 ++ beyond) = ((blockBody rest).1, beyond) := by
    by_cases ended : (blockBody rest).2 = []
    · obtain ⟨rfl, -⟩ := List.append_eq_nil_iff.mp (split.symm.trans ended)
      have whole := blockBody_append rest
      rw [ended] at whole
      rw [whole, ← ended]
    · exact blockBody_append_of_ended ended beyond
  rw [List.cons_append, List.cons_append, pieces, read]
  rfl

theorem literalPieces_append {quote : Char} {body beyond : List Char} (more : beyond ≠ []) (rest : List Char) :
    literalPieces quote body (beyond ++ rest) =
      ((literalPieces quote body beyond).1, (literalPieces quote body beyond).2 ++ rest) := by
  obtain ⟨c, beyond, rfl⟩ := List.exists_cons_of_ne_nil more
  rw [List.cons_append, literalPieces, literalPieces]
  split <;> rfl

theorem flatMap_text_codes (cs : List Char) : (cs.map code).flatMap Piece.text = cs := by
  induction cs with
  | nil => rfl
  | cons c cs ih => rw [List.map_cons, List.flatMap_cons, ih]; rfl

/-- A literal that is read alike whatever is left of the text behind its body, something of it or everything. -/
theorem keepsFront_literal {opening : List Char} {quote : Char} {body later : List Char}
    (openingCode : ∀ front mid, opening = front ++ mid → mid ≠ [] → pieces front = front.map code)
    (read : ∀ beyond rest, later = beyond ++ rest → (rest = [] ∨ beyond ≠ []) →
      pieces (opening ++ (body ++ beyond)) = opening.map code ++
        ((literalPieces quote body beyond).1 ++ pieces (literalPieces quote body beyond).2))
    (ih : KeepsFront (literalPieces quote body later).2) : KeepsFront (opening ++ (body ++ later)) := by
  intro offset before rest whole outside
  have readAll := read later [] (by simp) (.inl rfl)
  rw [readAll] at outside
  by_cases short : utf8Length opening ≤ utf8Length before
  · obtain ⟨behind, rfl, parts⟩ := append_eq_append_of_le whole short
    rcases append_eq_append_cases parts with ⟨mid, rfl, rfl⟩ | ⟨beyond, more, rfl, rfl⟩
    · obtain ⟨others, first⟩ := exists_literalPieces_eq_cons quote (behind ++ mid) later
      rw [containedIn_codes, first, List.cons_append, containedIn_cons, Bool.or_eq_false_iff] at outside
      simp [Region.contains] at outside
      omega
    · have text : (opening.map code ++ (literalPieces quote body beyond).1).flatMap Piece.text ++
          (literalPieces quote body beyond).2 = opening ++ (body ++ beyond) := by
        rw [List.flatMap_append, flatMap_text_codes, List.append_assoc, literalPieces_text]
      rw [blank, blank, readAll, read beyond rest rfl (.inr more)]
      rw [literalPieces_append more] at ih outside ⊢
      simp only [← List.append_assoc (opening.map code)] at outside ⊢
      rw [← text] at outside
      exact blanked_prefix _ rfl ih outside
  · obtain ⟨mid, rfl, -⟩ := append_eq_append_of_le whole.symm (by omega)
    have nonempty : mid ≠ [] := by
      rintro rfl
      simp at short
    rw [blank, blank, readAll, openingCode before mid rfl nonempty, List.map_append, List.append_assoc,
      List.flatMap_append]
    exact List.prefix_append ..

/-- The pieces of a text that begins with a quote. -/
theorem pieces_quote {c : Char} (isQuote : c = '"' ∨ c = '\'') (cs : List Char) :
    pieces (c :: cs) = [c].map code ++ ((literalPieces c (ordinaryBody c cs).1 (ordinaryBody c cs).2).1 ++
      pieces (literalPieces c (ordinaryBody c cs).1 (ordinaryBody c cs).2).2) := by
  have slash : c ≠ '/' := by rcases isQuote with rfl | rfl <;> decide
  have sign : c ≠ '@' := by rcases isQuote with rfl | rfl <;> decide
  rw [pieces.eq_6 _ _ (fun _ mark => absurd mark slash) (fun _ mark => absurd mark slash)
    (fun _ mark => absurd mark sign) (fun _ mark => absurd mark sign), if_pos isQuote]
  rfl

/-- The pieces of a text that begins with the opening of a verbatim string. -/
theorem pieces_signs {opening : List Char} (signs : opening = ['@', '"'] ∨ opening = ['@', '$', '"']) (cs : List Char) :
    pieces (opening ++ cs) = opening.map code ++ ((literalPieces '"' (verbatimBody cs).1 (verbatimBody cs).2).1 ++
      pieces (literalPieces '"' (verbatimBody cs).1 (verbatimBody cs).2).2) := by
  rcases signs with rfl | rfl
  · rw [List.cons_append, List.singleton_append, pieces]
    rfl
  · rw [List.cons_append, List.cons_append, List.singleton_append, pieces]
    rfl

theorem keepsFront_ordinary {c : Char} {rest : List Char} (isQuote : c = '"' ∨ c = '\'')
    (ih : KeepsFront (literalPieces c (ordinaryBody c rest).1 (ordinaryBody c rest).2).2) : KeepsFront (c :: rest) := by
  have front : ∀ front mid, [c] = front ++ mid → mid ≠ [] → pieces front = front.map code := by
    intro front mid parts nonempty
    rcases List.singleton_eq_append_iff.mp parts with ⟨rfl, -⟩ | ⟨-, none⟩
    · exact pieces.eq_1
    · exact absurd none nonempty
  have literal := keepsFront_literal front (fun beyond later split remains => ?_) ih
  · rwa [ordinaryBody_append] at literal
  · have same : ordinaryBody c ((ordinaryBody c rest).1 ++ beyond) = ((ordinaryBody c rest).1, beyond) := by
      rcases remains with rfl | more
      · rw [List.append_nil] at split
        rw [← split, ordinaryBody_append]
      · obtain ⟨ending, beyond, rfl⟩ := List.exists_cons_of_ne_nil more
        exact ordinaryBody_append_of_ended split beyond
    rw [List.singleton_append, pieces_quote isQuote, same]

theorem keepsFront_verbatim (opening : List Char) {rest : List Char}
    (signs : opening = ['@', '"'] ∨ opening = ['@', '$', '"'])
    (ih : KeepsFront (literalPieces '"' (verbatimBody rest).1 (verbatimBody rest).2).2) :
    KeepsFront (opening ++ rest) := by
  have lastSign {front mid : List Char} (parts : ['"'] = front ++ mid) (nonempty : mid ≠ []) : front = [] := by
    rcases List.singleton_eq_append_iff.mp parts with ⟨none, -⟩ | ⟨-, none⟩
    · exact none
    · exact absurd none nonempty
  have front : ∀ front mid, opening = front ++ mid → mid ≠ [] → pieces front = front.map code := by
    intro front mid parts nonempty
    rcases signs with rfl | rfl
    · rcases List.cons_eq_append_iff.mp parts with ⟨rfl, -⟩ | ⟨front, rfl, quote⟩
      · exact pieces.eq_1
      · simp [lastSign quote nonempty, pieces]
    · rcases List.cons_eq_append_iff.mp parts with ⟨rfl, -⟩ | ⟨front, rfl, tail⟩
      · exact pieces.eq_1
      rcases List.cons_eq_append_iff.mp tail with ⟨rfl, -⟩ | ⟨front, rfl, quote⟩
      · simp [pieces]
      · simp [lastSign quote nonempty, pieces]
  have literal := keepsFront_literal front (fun beyond later split remains => ?_) ih
  · rwa [verbatimBody_append] at literal
  · have same : verbatimBody ((verbatimBody rest).1 ++ beyond) = ((verbatimBody rest).1, beyond) := by
      rcases remains with rfl | more
      · rw [List.append_nil] at split
        rw [← split, verbatimBody_append]
      · rcases (run_verbatimBody rest).2 with none | ⟨others, quote, single, -⟩
        · rw [none] at split
          exact absurd (List.append_eq_nil_iff.mp split.symm).1 more
        · obtain ⟨c, beyond, rfl⟩ := List.exists_cons_of_ne_nil more
          obtain ⟨rfl, rfl⟩ := List.cons.inj (quote.symm.trans split)
          refine verbatimBody_append_of_ended quote fun first => ?_
          obtain ⟨doubled, rfl⟩ := List.head?_eq_some_iff.mp first
          exact single rfl
    rw [pieces_signs signs, same]

/-- A character with which no comment and no literal begins; none begins with it when less follows. -/
theorem keepsFront_code {c : Char} {rest : List Char} (comment : ∀ more, c = '/' → rest = '/' :: more → False)
    (block : ∀ more, c = '/' → rest = '*' :: more → False) (verbatim : ∀ more, c = '@' → rest = '"' :: more → False)
    (dollar : ∀ more, c = '@' → rest = '$' :: '"' :: more → False) (noQuote : ¬ (c = '"' ∨ c = '\''))
    (ih : KeepsFront rest) : KeepsFront (c :: rest) := by
  intro offset before later whole outside
  rcases List.cons_eq_append_iff.mp whole with ⟨rfl, -⟩ | ⟨front, rfl, rfl⟩
  · rw [blank_nil]
    exact List.nil_prefix
  · have short : pieces (c :: front) = [code c] ++ pieces front := by
      rw [pieces.eq_6 _ _ (fun more mark same => comment _ mark (by rw [same]; rfl))
        (fun more mark same => block _ mark (by rw [same]; rfl))
        (fun more mark same => verbatim _ mark (by rw [same]; rfl))
        (fun more mark same => dollar _ mark (by rw [same]; rfl)), if_neg noQuote]
      rfl
    have long : pieces (c :: (front ++ later)) = [code c] ++ pieces (front ++ later) := by
      rw [pieces.eq_6 _ _ comment block verbatim dollar, if_neg noQuote]
      rfl
    rw [long] at outside
    rw [blank, blank, short, long]
    exact blanked_prefix [code c] rfl ih outside

theorem keepsFront (cs : List Char) : KeepsFront cs := by
  fun_induction pieces cs with
  | case1 => exact keepsFront_nil
  | case2 rest ih => exact keepsFront_lineComment ih
  | case3 rest ih => exact keepsFront_blockComment ih
  | case4 rest read ih => exact keepsFront_verbatim ['@', '"'] (.inl rfl) ih
  | case5 rest read ih => exact keepsFront_verbatim ['@', '$', '"'] (.inr rfl) ih
  | case6 c rest _ _ _ _ isQuote read ih => exact keepsFront_ordinary isQuote ih
  | case7 c rest comment block verbatim dollar noQuote ih =>
    exact keepsFront_code comment block verbatim dollar noQuote ih

theorem blank_prefix {before rest : List Char}
    (outside : inCommentOrLiteral (before ++ rest) (utf8Length before) = false) :
    blank before <+: blank (before ++ rest) := by
  refine keepsFront (before ++ rest) 0 before rest rfl ?_
  rw [Nat.zero_add]
  exact outside

/-- What is completed at a caret: the access expression at the end of the blanked text before it. -/
def targetAt (source : List Char) (caret : Nat) : Except CutError Target :=
  (cut (Context.of source caret).caret (Context.of source caret).text).map fun (before, _) => Target.of before

theorem cut_blank {source : List Char} {caret : Nat} (boundary : IsBoundary caret source)
    (outside : inCommentOrLiteral source caret = false) :
    ∃ rest, blank source = blank (upTo caret source) ++ rest ∧
      cut caret (blank source) = .ok (blank (upTo caret source), rest) := by
  obtain ⟨before, later, rfl, rfl⟩ := boundary
  obtain ⟨rest, whole⟩ := blank_prefix outside
  have parts := cut_append (blank before) rest
  rw [utf8Length_blank, whole] at parts
  rw [upTo_append]
  exact ⟨rest, whole.symm, parts⟩

theorem targetAt_eq {source : List Char} {caret : Nat} (boundary : IsBoundary caret source)
    (outside : inCommentOrLiteral source caret = false) :
    targetAt source caret = .ok (Target.of (blank (upTo caret source))) := by
  obtain ⟨rest, -, parts⟩ := cut_blank boundary outside
  have caretKept : (Context.of source caret).caret = caret := boundary.floorBoundary
  have text : (Context.of source caret).text = blank source := rfl
  rw [targetAt, caretKept, text, parts]
  rfl

/-- Up to a caret outside of comments and literals the blanked text is what the text before the caret is blanked to,
byte for byte. So two sources with one text before such a caret have one target there. -/
theorem blank_before_caret {source : List Char} {caret : Nat} (boundary : IsBoundary caret source)
    (outside : inCommentOrLiteral source caret = false) :
    (bytesAsChars (blank source)).take caret = bytesAsChars (blank (upTo caret source)) ∧
      targetAt source caret = .ok (Target.of (blank (upTo caret source))) ∧
      ∀ other, IsBoundary caret other → inCommentOrLiteral other caret = false → upTo caret other = upTo caret source →
        targetAt other caret = targetAt source caret := by
  refine ⟨?_, targetAt_eq boundary outside, fun other otherBoundary otherOutside same => ?_⟩
  · obtain ⟨rest, whole, -⟩ := cut_blank boundary outside
    have length : (bytesAsChars (blank (upTo caret source))).length = caret := by
      rw [length_bytesAsChars, utf8Length_blank]
      exact boundary.floorBoundary
    rw [whole, bytesAsChars_append, List.take_left' length]
  · rw [targetAt_eq otherBoundary otherOutside, targetAt_eq boundary outside, same]

/-- A verbatim string with a doubled quote, a character behind a backslash and a comment with a quote before the caret,
and the given text behind it. -/
def typedCode (behind : String) : List Char := ("s = @$\"a\"\"b\" + '\\'' /* é\" */; x." ++ behind).toList

theorem blank_before_caret_typed :
    IsBoundary 33 (typedCode "\" // z") ∧ inCommentOrLiteral (typedCode "\" // z") 33 = false ∧
      inCommentOrLiteral (typedCode "/* y") 33 = false ∧
      (bytesAsChars (blank (typedCode "\" // z"))).take 33 = bytesAsChars (blank (upTo 33 (typedCode "\" // z"))) ∧
      targetAt (typedCode "/* y") 33 = targetAt (typedCode "\" // z") 33 := by
  have boundary (behind : String) : IsBoundary 33 (typedCode behind) :=
    ⟨"s = @$\"a\"\"b\" + '\\'' /* é\" */; x.".toList, behind.toList, by simp [typedCode], by decide⟩
  have outside : inCommentOrLiteral (typedCode "\" // z") 33 = false := by decide +kernel
  have otherOutside : inCommentOrLiteral (typedCode "/* y") 33 = false := by decide +kernel
  obtain ⟨bytes, -, alike⟩ := blank_before_caret (boundary _) outside
  exact ⟨boundary _, outside, otherOutside, bytes, alike _ (boundary _) otherOutside (by decide +kernel)⟩

end Typeahead.Source
