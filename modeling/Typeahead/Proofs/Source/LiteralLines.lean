import Typeahead.Proofs.Source.BeforeCaret
import Typeahead.Proofs.Source.Geometry

namespace Typeahead.Source

open Text

/-- The text ends in an odd number of backslashes, so the last one takes the character behind it along. -/
def EndsInEscape (text : List Char) : Prop := (text.reverse.takeWhile (· == '\\')).length % 2 = 1

instance (text : List Char) : Decidable (EndsInEscape text) :=
  inferInstanceAs (Decidable ((text.reverse.takeWhile (· == '\\')).length % 2 = 1))

theorem not_endsInEscape_nil : ¬ EndsInEscape [] := by decide

theorem endsInEscape_concat (text : List Char) (c : Char) :
    EndsInEscape (text ++ [c]) ↔ c = '\\' ∧ ¬ EndsInEscape text := by
  unfold EndsInEscape
  rw [List.reverse_concat, List.takeWhile_cons]
  by_cases backslash : c = '\\'
  · simp only [backslash, beq_self_eq_true, if_true, List.length_cons, true_and]
    omega
  · simp [backslash]

/-- Behind a text that ends in no escape the escapes are those of what follows. -/
theorem endsInEscape_append {front : List Char} (plain : ¬ EndsInEscape front) (text : List Char) :
    EndsInEscape (front ++ text) ↔ EndsInEscape text := by
  induction text using List.reverseRecOn with
  | nil => simp [plain, not_endsInEscape_nil]
  | append_singleton text c ih => rw [← List.append_assoc, endsInEscape_concat, endsInEscape_concat, ih]

variable {quote : Char}

/-- What ends a literal if no backslash takes it along. -/
def IsStop (quote c : Char) : Prop := c = quote ∨ c = '\n'

/-- Every quote and every line feed of the text is escaped. -/
def EscapesStops (quote : Char) (text : List Char) : Prop :=
  ∀ front c back, text = front ++ c :: back → IsStop quote c → EndsInEscape front

theorem escapesStops_nil : EscapesStops quote [] := by
  intro front c back none _
  exact absurd none.symm (List.append_ne_nil_of_right_ne_nil _ (List.cons_ne_nil c back))

theorem EscapesStops.append {front text : List Char} (first : EscapesStops quote front) (plain : ¬ EndsInEscape front)
    (later : EscapesStops quote text) : EscapesStops quote (front ++ text) := by
  intro before c back split stop
  rcases append_eq_append_cases split with ⟨mid, here, behind⟩ | ⟨beyond, -, rfl, behind⟩
  · cases mid with
    | nil =>
      rw [List.append_nil] at here
      exact absurd (later [] c back behind.symm stop) not_endsInEscape_nil
    | cons d mid =>
      obtain ⟨rfl, -⟩ := List.cons.inj behind
      exact first before c mid here stop
  · exact (endsInEscape_append plain beyond).mpr (later beyond c back behind stop)

theorem escapesStops_singleton {c : Char} (goesOn : ¬ IsStop quote c) : EscapesStops quote [c] := by
  intro front d back split stop
  obtain ⟨-, same⟩ | ⟨-, none⟩ := List.singleton_eq_append_iff.mp split
  · exact absurd ((List.cons.inj same).1 ▸ stop) goesOn
  · exact absurd none (List.cons_ne_nil d back)

theorem not_isStop_backslash (plainQuote : quote ≠ '\\') : ¬ IsStop quote '\\' :=
  not_or.mpr ⟨plainQuote.symm, by decide⟩

theorem escapesStops_escape (plainQuote : quote ≠ '\\') (c : Char) : EscapesStops quote ['\\', c] := by
  intro front d back split stop
  rcases List.cons_eq_append_iff.mp split with ⟨-, same⟩ | ⟨rest, rfl, tail⟩
  · exact absurd ((List.cons.inj same).1 ▸ stop) (not_isStop_backslash plainQuote)
  · rcases List.singleton_eq_append_iff.mp tail with ⟨rfl, -⟩ | ⟨-, none⟩
    · decide
    · exact absurd none (List.cons_ne_nil d back)

theorem not_endsInEscape_escape (c : Char) : ¬ EndsInEscape ['\\', c] := fun escape =>
  ((endsInEscape_concat ['\\'] c).mp escape).2 (by decide)

theorem not_endsInEscape_singleton {c : Char} (plain : c ≠ '\\') : ¬ EndsInEscape [c] := fun escape =>
  plain ((endsInEscape_concat [] c).mp escape).1

/-- In the body of a literal that is not verbatim every quote and every line feed is escaped, and what ends the body is
not. -/
theorem ordinaryBody_spec (plainQuote : quote ≠ '\\') (cs : List Char) :
    EscapesStops quote (ordinaryBody quote cs).1 ∧
      ∀ c ∈ (ordinaryBody quote cs).2.head?, IsStop quote c ∧ ¬ EndsInEscape (ordinaryBody quote cs).1 := by
  fun_induction ordinaryBody quote cs with
  | case1 => exact ⟨escapesStops_nil, by simp⟩
  | case2 => exact ⟨escapesStops_singleton (not_isStop_backslash plainQuote), by simp⟩
  | case3 c rest body later read ih =>
    rw [read] at ih
    have unit := escapesStops_escape plainQuote c
    have plain := not_endsInEscape_escape c
    refine ⟨unit.append plain ih.1, fun d first => ?_⟩
    exact (ih.2 d first).imp_right (mt (endsInEscape_append plain body).mp)
  | case4 c rest noEnd noEscape stops =>
    refine ⟨escapesStops_nil, fun d first => ?_⟩
    obtain rfl := Option.some.inj first
    exact ⟨stops, not_endsInEscape_nil⟩
  | case5 c rest noEnd noEscape goesOn body later read ih =>
    rw [read] at ih
    have plain : ¬ EndsInEscape [c] := not_endsInEscape_singleton <| by
      rintro rfl
      cases rest with
      | nil => exact noEnd rfl rfl
      | cons d rest => exact noEscape d rest rfl rfl
    refine ⟨(escapesStops_singleton goesOn).append plain ih.1, fun d first => ?_⟩
    exact (ih.2 d first).imp_right (mt (endsInEscape_append plain body).mp)

/-- Behind a quote the line goes on to its end with no quote that closes the literal, and it ends in an escape. -/
def TakesLineFeed (quote : Char) (behind : List Char) : Prop :=
  ∃ line later, behind = line ++ '\n' :: later ∧ '\n' ∉ line ∧ EscapesStops quote line ∧ EndsInEscape line

theorem lineFeed_mem_ordinaryBody_iff (plainQuote : quote ≠ '\\') (cs : List Char) :
    '\n' ∈ (ordinaryBody quote cs).1 ↔ TakesLineFeed quote cs := by
  obtain ⟨escaped, ends⟩ := ordinaryBody_spec plainQuote cs
  have whole := ordinaryBody_append quote cs
  generalize ordinaryBody quote cs = read at escaped ends whole ⊢
  obtain ⟨body, rest⟩ := read
  subst whole
  constructor
  · intro inside
    obtain ⟨line, back, rfl, sameLine⟩ := List.eq_append_cons_of_mem inside
    refine ⟨line, back ++ rest, by simp, sameLine, fun front c later inLine => ?_,
      escaped line '\n' back rfl (.inr rfl)⟩
    exact escaped front c (later ++ '\n' :: back) (by simp [inLine])
  · rintro ⟨line, later, split, -, stops, escape⟩
    -- a body that ended in the line would end at a quote that the line escapes
    rcases append_eq_append_cases split with ⟨mid, rfl, behind⟩ | ⟨beyond, nonempty, rfl, behind⟩
    · cases mid with
      | nil =>
        subst behind
        exact absurd (by simpa using escape) (ends '\n' rfl).2
      | cons d mid =>
        obtain ⟨rfl, -⟩ := List.cons.inj behind
        simp
    · obtain ⟨c, beyond, rfl⟩ := List.exists_cons_of_ne_nil nonempty
      obtain ⟨stop, open_⟩ := ends c (by rw [behind]; rfl)
      exact absurd (stops body c beyond rfl stop) open_

/-- The pieces behind the body of a literal: what ends it is code. -/
def piecesBehind : List Char → List Piece
  | [] => []
  | c :: later => code c :: pieces later

theorem flatMap_text_piecesBehind (later : List Char) : (piecesBehind later).flatMap Piece.text = later := by
  cases later with
  | nil => rfl
  | cons c later => rw [piecesBehind, List.flatMap_cons, flatMap_text_pieces]; rfl

/-- A literal ends with the text, at its quote, which is read along, or in front of a line feed. -/
theorem literalPieces_cases (body : List Char) {later : List Char} (ends : ∀ c ∈ later.head?, IsStop quote c) :
    (later = [] ∧ literalPieces quote body later = ([⟨some .literal, body⟩], [])) ∨
      (∃ rest, later = quote :: rest ∧
        literalPieces quote body later = ([⟨some .literal, body⟩, code quote], rest)) ∨
      ∃ rest, later = '\n' :: rest ∧ literalPieces quote body later = ([⟨some .literal, body⟩], '\n' :: rest) := by
  cases later with
  | nil => exact .inl ⟨rfl, rfl⟩
  | cons c later =>
    by_cases closes : c = quote
    · subst closes
      exact .inr (.inl ⟨later, rfl, by simp [literalPieces]⟩)
    · obtain rfl := (ends c rfl).resolve_left closes
      exact .inr (.inr ⟨later, rfl, by simp [literalPieces, closes]⟩)

theorem literalPieces_append_pieces {body later : List Char} (ends : ∀ c ∈ later.head?, IsStop quote c) :
    (literalPieces quote body later).1 ++ pieces (literalPieces quote body later).2 =
      ⟨some .literal, body⟩ :: piecesBehind later := by
  rcases literalPieces_cases body ends with ⟨rfl, read⟩ | ⟨rest, rfl, read⟩ | ⟨rest, rfl, read⟩
  · rw [read, pieces]
    rfl
  · rw [read]
    rfl
  · rw [read, pieces_lineBreak]
    rfl

theorem isStop_of_verbatim (cs : List Char) : ∀ c ∈ (verbatimBody cs).2.head?, IsStop '"' c := by
  intro c first
  rcases (run_verbatimBody cs).2 with none | ⟨others, mark, -, -⟩
  · simp [none] at first
  · rw [mark] at first
    exact .inl (Option.some.inj first).symm

theorem isStop_of_ordinary (quote : Char) (cs : List Char) : ∀ c ∈ (ordinaryBody quote cs).2.head?, IsStop quote c :=
  ordinaryBody_head? quote cs

/-- What holds of each literal among the pieces behind a text: of the text before it, its body, and the
text behind it. -/
def EachLiteral (holds : List Char → List Char → List Char → Prop) (front : List Char) : List Piece → Prop
  | [] => True
  | p :: ps =>
    (p.kind = some .literal → holds front p.text (ps.flatMap Piece.text)) ∧ EachLiteral holds (front ++ p.text) ps

variable {holds : List Char → List Char → List Char → Prop} {front : List Char}

theorem eachLiteral_iff {ps : List Piece} :
    EachLiteral holds front ps ↔ ∀ earlier p later, ps = earlier ++ p :: later → p.kind = some .literal →
      holds (front ++ earlier.flatMap Piece.text) p.text (later.flatMap Piece.text) := by
  induction ps generalizing front with
  | nil => simp [EachLiteral]
  | cons q ps ih =>
    rw [EachLiteral, ih]
    constructor
    · rintro ⟨first, others⟩ earlier p later split isLiteral
      rcases List.cons_eq_append_iff.mp split with ⟨rfl, same⟩ | ⟨earlier, rfl, rest⟩
      · obtain ⟨rfl, rfl⟩ := List.cons.inj same
        simpa using first isLiteral
      · simpa using others earlier p later rest isLiteral
    · intro each
      exact ⟨by simpa using each [] q ps rfl, fun earlier p later split isLiteral => by
        simpa using each (q :: earlier) p later (by rw [split]; rfl) isLiteral⟩

theorem eachLiteral_cons {p : Piece} {ps : List Piece} (other : p.kind ≠ some .literal) :
    EachLiteral holds front (p :: ps) ↔ EachLiteral holds (front ++ p.text) ps :=
  and_iff_right fun isLiteral => absurd isLiteral other

theorem eachLiteral_code {c : Char} {ps : List Piece} :
    EachLiteral holds front (code c :: ps) ↔ EachLiteral holds (front ++ [c]) ps :=
  eachLiteral_cons (by simp [code])

theorem eachLiteral_body {body later : List Char} :
    EachLiteral holds front (⟨some .literal, body⟩ :: piecesBehind later) ↔
      holds front body later ∧ EachLiteral holds (front ++ body) (piecesBehind later) := by
  rw [EachLiteral, flatMap_text_piecesBehind]
  simp

/-- The text up to a quote, the quote included, in front of the body of a verbatim string. -/
def OpensVerbatim (text : List Char) : Prop := ['@', '"'] <:+ text ∨ ['@', '$', '"'] <:+ text

/-- A literal stands behind its quote, and its body is read as that of an ordinary one or its opening is verbatim. -/
def ReadsAsOpened (front body later : List Char) : Prop :=
  ∃ before quote, (quote = '"' ∨ quote = '\'') ∧ front = before ++ [quote] ∧
    (OpensVerbatim front ∨ ordinaryBody quote (body ++ later) = (body, later))

theorem eachLiteral_behind {body later : List Char} (ends : ∀ c ∈ later.head?, IsStop quote c)
    (ih : ∀ front, EachLiteral holds front (pieces (literalPieces quote body later).2)) :
    EachLiteral holds front (piecesBehind later) := by
  rcases literalPieces_cases body ends with ⟨rfl, -⟩ | ⟨rest, rfl, read⟩ | ⟨rest, rfl, read⟩
  · trivial
  · rw [read] at ih
    exact eachLiteral_code.mpr (ih _)
  · rw [read, pieces_lineBreak] at ih
    exact ih _

theorem eachLiteral_readsAsOpened (front cs : List Char) : EachLiteral ReadsAsOpened front (pieces cs) := by
  fun_induction pieces cs generalizing front with
  | case1 => trivial
  | case2 rest ih => exact (eachLiteral_cons (by simp)).mpr (ih _)
  | case3 rest ih => exact (eachLiteral_cons (by simp)).mpr (ih _)
  | case4 rest read ih =>
    have ends := isStop_of_verbatim rest
    rw [List.cons_append, List.cons_append, literalPieces_append_pieces ends, eachLiteral_code, eachLiteral_code,
      eachLiteral_body]
    exact ⟨⟨front ++ ['@'], '"', .inl rfl, rfl, .inl (.inl ⟨front, by simp⟩)⟩, eachLiteral_behind ends ih⟩
  | case5 rest read ih =>
    have ends := isStop_of_verbatim rest
    rw [List.cons_append, List.cons_append, List.cons_append, literalPieces_append_pieces ends, eachLiteral_code,
      eachLiteral_code, eachLiteral_code, eachLiteral_body]
    exact ⟨⟨front ++ ['@'] ++ ['$'], '"', .inl rfl, rfl, .inl (.inr ⟨front, by simp⟩)⟩, eachLiteral_behind ends ih⟩
  | case6 c rest _ _ _ _ isQuote read ih =>
    have ends := isStop_of_ordinary c rest
    rw [List.cons_append, literalPieces_append_pieces ends, eachLiteral_code, eachLiteral_body]
    refine ⟨⟨front, c, isQuote, rfl, .inr ?_⟩, eachLiteral_behind ends ih⟩
    rw [ordinaryBody_append]
  | case7 c rest _ _ _ _ _ ih => exact eachLiteral_code.mpr (ih _)

theorem opensVerbatim_concat :
    OpensVerbatim (front ++ ['"']) ↔ front.getLast? = some '@' ∨ ['@', '$'] <:+ front := by
  have behind (signs : List Char) : signs ++ ['"'] <:+ front ++ ['"'] ↔ signs <:+ front :=
    List.suffix_append_self_iff
  exact or_congr ((behind ['@']).trans List.singleton_suffix_iff_getLast?_eq_some) (behind ['@', '$'])

theorem signs_suffix_concat {c : Char} : ['@', '$'] <:+ front ++ [c] ↔ front.getLast? = some '@' ∧ c = '$' := by
  constructor
  · rintro ⟨before, same⟩
    have parts : before ++ ['@'] ++ ['$'] = front ++ [c] := by simpa using same
    obtain ⟨rfl, last⟩ := List.append_inj' parts rfl
    exact ⟨by simp, (List.cons.inj last).1.symm⟩
  · rintro ⟨last, rfl⟩
    exact List.suffix_append_self_iff.mpr (List.singleton_suffix_iff_getLast?_eq_some.mpr last)

/-- A quote at the start of the text, alone or behind a dollar sign, is not that of a verbatim string. -/
structure StandsAlone (front cs : List Char) : Prop where
  quote : cs.head? = some '"' → ¬ OpensVerbatim (front ++ ['"'])
  dollar : ['$', '"'] <+: cs → front.getLast? ≠ some '@'

theorem standsAlone_nil (cs : List Char) : StandsAlone [] cs where
  quote _ := mt opensVerbatim_concat.mp (by simp)
  dollar _ := by simp

theorem StandsAlone.of_head {cs : List Char} (other : ∀ c ∈ cs.head?, c ≠ '"' ∧ c ≠ '$') : StandsAlone front cs where
  quote first := absurd rfl (other '"' first).1
  dollar := by
    rintro ⟨rest, rfl⟩
    exact absurd rfl (other '$' rfl).2

theorem StandsAlone.of_last {c : Char} (noAt : c ≠ '@') (noDollar : c ≠ '$') (cs : List Char) :
    StandsAlone (front ++ [c]) cs where
  quote _ := mt opensVerbatim_concat.mp (by simp [signs_suffix_concat, noAt, noDollar])
  dollar _ := by simp [noAt]

theorem StandsAlone.code {c : Char} {rest : List Char} (alone : StandsAlone front (c :: rest))
    (noQuote : ∀ more, c = '@' → rest = '"' :: more → False)
    (noDollar : ∀ more, c = '@' → rest = '$' :: '"' :: more → False) : StandsAlone (front ++ [c]) rest where
  quote first := by
    obtain ⟨more, rfl⟩ := List.head?_eq_some_iff.mp first
    rw [opensVerbatim_concat, signs_suffix_concat, List.getLast?_concat, Option.some.injEq]
    rintro (at_ | ⟨last, rfl⟩)
    · exact noQuote more at_ rfl
    · exact alone.dollar (List.prefix_append ['$', '"'] more) last
  dollar := by
    rintro ⟨more, rfl⟩
    rw [List.getLast?_concat]
    exact fun at_ => noDollar more (Option.some.inj at_) rfl

/-- The text behind the body of a literal, blanked: what ends the body stays. -/
def blankBehind : List Char → List Char
  | [] => []
  | c :: later => c :: blank later

theorem blank_quote {c : Char} (isQuote : c = '"' ∨ c = '\'') (cs : List Char) :
    blank (c :: cs) = c :: ((ordinaryBody c cs).1.flatMap blankChar ++ blankBehind (ordinaryBody c cs).2) := by
  rw [blank, pieces_quote isQuote, literalPieces_append_pieces (isStop_of_ordinary c cs)]
  cases (ordinaryBody c cs).2 <;> simp [piecesBehind, blankBehind, Piece.blanked, code, blank]

theorem blank_signs {opening : List Char} (signs : opening = ['@', '"'] ∨ opening = ['@', '$', '"']) (cs : List Char) :
    blank (opening ++ cs) =
      opening ++ ((verbatimBody cs).1.flatMap blankChar ++ blankBehind (verbatimBody cs).2) := by
  have codes : (opening.map code).flatMap Piece.blanked = opening := by
    rcases signs with rfl | rfl <;> rfl
  rw [blank, pieces_signs signs, literalPieces_append_pieces (isStop_of_verbatim cs), List.flatMap_append, codes]
  cases (verbatimBody cs).2 <;> simp [piecesBehind, blankBehind, Piece.blanked, code, blank]

/-- Spaces and line breaks. -/
def IsBlankText (text : List Char) : Prop := ∀ c ∈ text, c = ' ' ∨ c = '\n' ∨ c = '\r'

theorem isBlankText_flatMap (text : List Char) : IsBlankText (text.flatMap blankChar) := by
  intro c inside
  obtain ⟨d, -, here⟩ := List.mem_flatMap.mp inside
  unfold blankChar at here
  split at here
  · next lineBreak =>
    rw [List.mem_singleton.mp here]
    exact .inr lineBreak
  · exact .inl (List.eq_of_mem_replicate here)

theorem blankChar_of_blank {c : Char} (blank : c = ' ' ∨ c = '\n' ∨ c = '\r') : blankChar c = [c] := by
  rcases blank with rfl | rfl | rfl <;> rfl

theorem IsBlankText.flatMap_blankChar {text : List Char} (isBlank : IsBlankText text) :
    text.flatMap blankChar = text := by
  induction text with
  | nil => rfl
  | cons c text ih =>
    rw [List.flatMap_cons, blankChar_of_blank (isBlank c List.mem_cons_self),
      ih fun d inside => isBlank d (List.mem_cons_of_mem _ inside)]
    rfl

theorem lineFeed_mem_flatMap_blankChar {text : List Char} (inside : '\n' ∈ text.flatMap blankChar) : '\n' ∈ text := by
  obtain ⟨d, member, here⟩ := List.mem_flatMap.mp inside
  unfold blankChar at here
  split at here
  · exact List.mem_singleton.mp here ▸ member
  · exact absurd (List.eq_of_mem_replicate here) (by decide)

/-- A character of code with which no comment, literal or verbatim string begins. -/
theorem blank_code {c : Char} {rest : List Char} (comment : ∀ more, c = '/' → rest = '/' :: more → False)
    (block : ∀ more, c = '/' → rest = '*' :: more → False) (noQuote : ∀ more, c = '@' → rest = '"' :: more → False)
    (noDollar : ∀ more, c = '@' → rest = '$' :: '"' :: more → False) (plain : ¬ (c = '"' ∨ c = '\'')) :
    blank (c :: rest) = c :: blank rest := by
  rw [blank, pieces.eq_6 _ _ comment block noQuote noDollar, if_neg plain]
  rfl

/-- A character with which nothing but code can begin. -/
theorem blank_plain {c : Char} (slash : c ≠ '/') (at_ : c ≠ '@') (noQuote : ¬ (c = '"' ∨ c = '\'')) (rest : List Char) :
    blank (c :: rest) = c :: blank rest :=
  blank_code (fun _ mark => absurd mark slash) (fun _ mark => absurd mark slash)
    (fun _ mark => absurd mark at_) (fun _ mark => absurd mark at_) noQuote

theorem IsBlankText.blank_append {text : List Char} (isBlank : IsBlankText text) (rest : List Char) :
    blank (text ++ rest) = text ++ blank rest := by
  induction text with
  | nil => rfl
  | cons c text ih =>
    have plain : c ≠ '/' ∧ c ≠ '@' ∧ ¬ (c = '"' ∨ c = '\'') := by
      rcases isBlank c List.mem_cons_self with rfl | rfl | rfl <;> decide
    rw [List.cons_append, blank_plain plain.1 plain.2.1 plain.2.2,
      ih fun d inside => isBlank d (List.mem_cons_of_mem _ inside)]
    rfl

/-- A character that is no blank stands first in the blanked text only where it stands first in the source. -/
theorem head?_of_blank {cs : List Char} {c : Char} (first : (blank cs).head? = some c) (visible : c ≠ ' ') :
    cs.head? = some c := by
  have comment {kind : RegionKind} {body : List Char} {ps : List Piece}
      (begins : ((⟨some kind, '/' :: body⟩ :: ps).flatMap Piece.blanked).head? = some c) : False := by
    have space : ((⟨some kind, '/' :: body⟩ :: ps : List Piece).flatMap Piece.blanked).head? = some ' ' := rfl
    exact visible (Option.some.inj (begins.symm.trans space))
  unfold blank at first
  fun_cases pieces cs with
  | case1 => rw [pieces] at first; exact first
  | case2 rest => rw [pieces] at first; exact (comment first).elim
  | case3 rest => rw [pieces] at first; exact (comment first).elim
  | case4 rest => rw [pieces] at first; exact first
  | case5 rest => rw [pieces] at first; exact first
  | case6 d rest slash star verbatim dollar isQuote =>
    rw [pieces.eq_6 _ _ slash star verbatim dollar, if_pos isQuote] at first
    exact first
  | case7 d rest slash star verbatim dollar noQuote =>
    rw [pieces.eq_6 _ _ slash star verbatim dollar, if_neg noQuote] at first
    exact first

theorem ordinaryBody_blank {text later : List Char} (isBlank : IsBlankText text) (sameLine : '\n' ∉ text)
    (isQuote : quote = '"' ∨ quote = '\'') (ends : ∀ c ∈ later.head?, IsStop quote c) :
    ordinaryBody quote (text ++ later) = (text, later) := by
  have plain : ∀ c ∈ text, c ≠ '\\' ∧ ¬ (c = quote ∨ c = '\n') := by
    intro c inside
    have noFeed : c ≠ '\n' := fun feed => sameLine (feed ▸ inside)
    rcases isBlank c inside with rfl | rfl | rfl
    · rcases isQuote with rfl | rfl <;> decide
    · exact absurd rfl noFeed
    · rcases isQuote with rfl | rfl <;> decide
  have stops : ordinaryBody quote later = ([], later) := by
    cases later with
    | nil => rfl
    | cons c later =>
      have noEscape : c ≠ '\\' := by
        rcases ends c rfl with rfl | rfl
        · rcases isQuote with rfl | rfl <;> decide
        · decide
      have stop : c = quote ∨ c = '\n' := ends c rfl
      rw [ordinaryBody.eq_4 _ _ _ (fun escape => absurd escape noEscape) (fun _ _ escape => absurd escape noEscape),
        if_pos stop]
  rw [ordinaryBody_plain plain, stops, List.append_nil]

theorem verbatimBody_blank {text later : List Char} (isBlank : IsBlankText text)
    (ends : later = [] ∨ ∃ more, later = '"' :: more ∧ more.head? ≠ some '"') :
    verbatimBody (text ++ later) = (text, later) := by
  have plain : ∀ c ∈ text, c ≠ '"' := by
    intro c inside
    rcases isBlank c inside with rfl | rfl | rfl <;> decide
  have stops : verbatimBody later = ([], later) := by
    rcases ends with rfl | ⟨more, rfl, single⟩
    · rfl
    · have noDouble : ∀ others, '"' = '"' → more = '"' :: others → False := by
        rintro others - rfl
        exact single rfl
      rw [verbatimBody.eq_3 _ _ noDouble, if_pos rfl]
  rw [verbatimBody_plain plain, stops, List.append_nil]

theorem blankBehind_blankBehind {body later : List Char} (ends : ∀ c ∈ later.head?, IsStop quote c)
    (ih : blank (blank (literalPieces quote body later).2) = blank (literalPieces quote body later).2) :
    blankBehind (blankBehind later) = blankBehind later := by
  rcases literalPieces_cases body ends with ⟨rfl, -⟩ | ⟨rest, rfl, read⟩ | ⟨rest, rfl, read⟩
  · rfl
  · rw [read] at ih
    rw [blankBehind, blankBehind, ih]
  · have lineBreak (cs : List Char) : blank ('\n' :: cs) = '\n' :: blank cs :=
      blank_plain (by decide) (by decide) (by decide) cs
    simp only [read, lineBreak] at ih
    rw [blankBehind, blankBehind, ih]

theorem head?_blankBehind (later : List Char) : (blankBehind later).head? = later.head? := by
  cases later <;> rfl

/-- What is read behind the body of a literal stands alone there. -/
theorem exists_standsAlone {body later : List Char} (isQuote : quote = '"' ∨ quote = '\'')
    (ends : ∀ c ∈ later.head?, IsStop quote c) (each : EachLiteral holds front (piecesBehind later)) :
    ∃ beyond, StandsAlone beyond (literalPieces quote body later).2 ∧
      EachLiteral holds beyond (pieces (literalPieces quote body later).2) := by
  rcases literalPieces_cases body ends with ⟨rfl, read⟩ | ⟨rest, rfl, read⟩ | ⟨rest, rfl, read⟩
  · rw [read, pieces]
    exact ⟨front, .of_head (by simp), trivial⟩
  · rw [read]
    have noSign : quote ≠ '@' ∧ quote ≠ '$' := by rcases isQuote with rfl | rfl <;> decide
    exact ⟨front ++ [quote], .of_last noSign.1 noSign.2 rest, eachLiteral_code.mp each⟩
  · rw [read, pieces_lineBreak]
    exact ⟨front, .of_head (by simp), each⟩

theorem blockBody_ends (cs : List Char) :
    (blockBody cs).2 = [] ∨ ∃ text, (blockBody cs).1 = text ++ ['/'] := by
  fun_induction blockBody cs with
  | case1 => exact .inl rfl
  | case2 rest => exact .inr ⟨['*'], rfl⟩
  | case3 c rest other body later read ih =>
    rw [read] at ih
    refine ih.imp_right ?_
    rintro ⟨text, split⟩
    exact ⟨c :: text, congrArg (c :: ·) split⟩

theorem blank_comment {kind : RegionKind} {cs text rest : List Char}
    (split : pieces cs = ⟨some kind, text⟩ :: pieces rest) : blank cs = text.flatMap blankChar ++ blank rest := by
  rw [blank, split]
  rfl

/-- A comment is left as blanks, and these as they are. -/
theorem blank_blank_comment {kind : RegionKind} {cs text rest : List Char}
    (split : pieces cs = ⟨some kind, text⟩ :: pieces rest) (ih : blank (blank rest) = blank rest) :
    blank (blank cs) = blank cs := by
  rw [blank_comment split, (isBlankText_flatMap text).blank_append, ih]

/-- The body goes on behind its line only if the string is verbatim. -/
def KeepsToLine (front body _later : List Char) : Prop := OpensVerbatim front ∨ '\n' ∉ body

theorem StandsAlone.not_opensVerbatim {c : Char} {rest : List Char} (alone : StandsAlone front (c :: rest))
    (isQuote : c = '"' ∨ c = '\'') : ¬ OpensVerbatim (front ++ [c]) := by
  rcases isQuote with rfl | rfl
  · exact alone.quote rfl
  · rintro (⟨before, same⟩ | ⟨before, same⟩)
    · have parts : before ++ ['@'] ++ ['"'] = front ++ ['\''] := by simpa using same
      exact absurd (List.append_inj' parts rfl).2 (by decide)
    · have parts : before ++ ['@', '$'] ++ ['"'] = front ++ ['\''] := by simpa using same
      exact absurd (List.append_inj' parts rfl).2 (by decide)

theorem blank_blank_ordinary {c : Char} {rest : List Char} (isQuote : c = '"' ∨ c = '\'')
    (sameLine : '\n' ∉ (ordinaryBody c rest).1)
    (ih : blank (blank (literalPieces c (ordinaryBody c rest).1 (ordinaryBody c rest).2).2) =
      blank (literalPieces c (ordinaryBody c rest).1 (ordinaryBody c rest).2).2) :
    blank (blank (c :: rest)) = blank (c :: rest) := by
  have ends := isStop_of_ordinary c rest
  have inLine := mt lineFeed_mem_flatMap_blankChar sameLine
  have blanks := isBlankText_flatMap (ordinaryBody c rest).1
  have endsBlank : ∀ d ∈ (blankBehind (ordinaryBody c rest).2).head?, IsStop c d := by rwa [head?_blankBehind]
  have again := ordinaryBody_blank blanks inLine isQuote endsBlank
  rw [blank_quote isQuote, blank_quote isQuote, again, blanks.flatMap_blankChar, blankBehind_blankBehind ends ih]

theorem blank_blank_verbatim {opening rest : List Char} (signs : opening = ['@', '"'] ∨ opening = ['@', '$', '"'])
    (ih : blank (blank (literalPieces '"' (verbatimBody rest).1 (verbatimBody rest).2).2) =
      blank (literalPieces '"' (verbatimBody rest).1 (verbatimBody rest).2).2) :
    blank (blank (opening ++ rest)) = blank (opening ++ rest) := by
  have blanks := isBlankText_flatMap (verbatimBody rest).1
  have again : verbatimBody ((verbatimBody rest).1.flatMap blankChar ++ blankBehind (verbatimBody rest).2) =
      ((verbatimBody rest).1.flatMap blankChar, blankBehind (verbatimBody rest).2) := by
    refine verbatimBody_blank blanks ((run_verbatimBody rest).2.imp (fun none => by rw [none]; rfl) ?_)
    rintro ⟨more, split, single, -⟩
    exact ⟨blank more, by rw [split]; rfl, fun first => single (head?_of_blank first (by decide))⟩
  rw [blank_signs signs, blank_signs signs, again, blanks.flatMap_blankChar,
    blankBehind_blankBehind (isStop_of_verbatim rest) ih]

theorem blank_blank_of_standsAlone (front cs : List Char) :
    StandsAlone front cs → EachLiteral KeepsToLine front (pieces cs) → blank (blank cs) = blank cs := by
  -- the text in front grows with the pieces: a quote must not become verbatim by what stands before it
  fun_induction pieces cs generalizing front with
  | case1 => simp [blank, pieces]
  | case2 rest ih =>
    intro _ each
    refine blank_blank_comment (pieces.eq_2 rest)
      (ih _ (.of_head fun c first => ?_) ((eachLiteral_cons (by simp)).mp each))
    rw [head?_dropWhile_lineBreak rest c first]
    decide
  | case3 rest ih =>
    intro _ each
    refine blank_blank_comment (pieces.eq_3 rest) (ih _ ?_ ((eachLiteral_cons (by simp)).mp each))
    rcases blockBody_ends rest with none | ⟨text, closed⟩
    · exact .of_head (by simp [none])
    · have last : front ++ '/' :: '*' :: (blockBody rest).1 = front ++ '/' :: '*' :: text ++ ['/'] := by simp [closed]
      exact last ▸ .of_last (by decide) (by decide) _
  | case4 rest read ih =>
    intro _ each
    have ends := isStop_of_verbatim rest
    rw [List.cons_append, List.cons_append, literalPieces_append_pieces ends, eachLiteral_code, eachLiteral_code,
      eachLiteral_body] at each
    obtain ⟨beyond, alone, each⟩ := exists_standsAlone (.inl rfl) ends each.2
    exact blank_blank_verbatim (.inl rfl) (ih beyond alone each)
  | case5 rest read ih =>
    intro _ each
    have ends := isStop_of_verbatim rest
    rw [List.cons_append, List.cons_append, List.cons_append, literalPieces_append_pieces ends, eachLiteral_code,
      eachLiteral_code, eachLiteral_code, eachLiteral_body] at each
    obtain ⟨beyond, alone, each⟩ := exists_standsAlone (.inl rfl) ends each.2
    exact blank_blank_verbatim (.inr rfl) (ih beyond alone each)
  | case6 c rest _ _ _ _ isQuote read ih =>
    intro alone each
    have ends := isStop_of_ordinary c rest
    rw [List.cons_append, literalPieces_append_pieces ends, eachLiteral_code, eachLiteral_body] at each
    have sameLine := each.1.resolve_left (alone.not_opensVerbatim isQuote)
    obtain ⟨beyond, apart, each⟩ := exists_standsAlone isQuote ends each.2
    exact blank_blank_ordinary isQuote sameLine (ih beyond apart each)
  | case7 c rest comment block noQuote noDollar plain ih =>
    intro alone each
    have same := ih _ (alone.code noQuote noDollar) (eachLiteral_code.mp each)
    -- what would begin a comment or a string in the blanked text stands in the source too
    have again {mark : Char} (visible : mark ≠ ' ') {more : List Char} (begins : blank rest = mark :: more) :
        ∃ others, rest = mark :: others :=
      List.head?_eq_some_iff.mp (head?_of_blank (by rw [begins]; rfl) visible)
    have pair {sign mark : Char} (none : ∀ more, c = sign → rest = mark :: more → False) (visible : mark ≠ ' ') :
        ∀ more, c = sign → blank rest = mark :: more → False := by
      intro more first begins
      obtain ⟨others, here⟩ := again visible begins
      exact none others first here
    have dollar : ∀ more, c = '@' → blank rest = '$' :: '"' :: more → False := by
      intro more at_ begins
      obtain ⟨others, rfl⟩ := again (by decide) begins
      rw [blank_plain (by decide) (by decide) (by decide)] at begins
      have quote : (blank others).head? = some '"' := by rw [(List.cons.inj begins).2]; rfl
      obtain ⟨later, rfl⟩ := List.head?_eq_some_iff.mp (head?_of_blank quote (by decide))
      exact noDollar later at_ rfl
    rw [blank_code comment block noQuote noDollar plain, blank_code (pair comment (by decide)) (pair block (by decide))
      (pair noQuote (by decide)) dollar plain, same]

/-- The region is the body of a literal in the source, between its quote and what follows. -/
structure Region.IsLiteral (source : List Char) (r : Region) (front : List Char) (quote : Char)
    (body later : List Char) : Prop where
  kind : r.kind = .literal
  isQuote : quote = '"' ∨ quote = '\''
  whole : source = front ++ [quote] ++ body ++ later
  start : r.start = utf8Length (front ++ [quote])
  stop : r.stop = utf8Length (front ++ [quote] ++ body)

/-- The region is a literal that is not verbatim, and the line of its quote leaves it open in an escape. -/
def Region.PassesLine (source : List Char) (r : Region) : Prop :=
  ∃ front quote body later, r.IsLiteral source front quote body later ∧ ¬ OpensVerbatim (front ++ [quote]) ∧
    TakesLineFeed quote (body ++ later)

theorem Region.IsLiteral.split {source : List Char} {r : Region} {front body later : List Char} {quote : Char}
    (literal : r.IsLiteral source front quote body later) :
    upTo r.start source = front ++ [quote] ∧ after r.start source = body ++ later := by
  have whole := literal.whole
  rw [List.append_assoc _ body] at whole
  rw [literal.start, whole]
  exact ⟨upTo_append .., after_append ..⟩

/-- A literal has one place in its source. -/
theorem Region.IsLiteral.passesLine_iff {source : List Char} {r : Region} {front body later : List Char} {quote : Char}
    (literal : r.IsLiteral source front quote body later) :
    r.PassesLine source ↔ ¬ OpensVerbatim (front ++ [quote]) ∧ TakesLineFeed quote (body ++ later) := by
  constructor
  · rintro ⟨otherFront, otherQuote, otherBody, otherLater, other, ordinary, takes⟩
    have opening := literal.split.1.symm.trans other.split.1
    obtain ⟨-, same⟩ := List.append_inj' opening rfl
    rw [opening, ← literal.split.2, other.split.2, (List.cons.inj same).1]
    exact ⟨ordinary, takes⟩
  · rintro ⟨ordinary, takes⟩
    exact ⟨front, quote, body, later, literal, ordinary, takes⟩

theorem Region.isLiteral_of_split {source : List Char} {r : Region} {earlier behind : List Piece} {p : Piece}
    (split : pieces source = earlier ++ p :: behind) (isPiece : p.kind = some r.kind) (kind : r.kind = .literal)
    (start : r.start = utf8Length (earlier.flatMap Piece.text)) (stop : r.stop = r.start + utf8Length p.text) :
    ∃ front quote, earlier.flatMap Piece.text = front ++ [quote] ∧
      r.IsLiteral source front quote p.text (behind.flatMap Piece.text) ∧
      (OpensVerbatim (front ++ [quote]) ∨
        ordinaryBody quote (p.text ++ behind.flatMap Piece.text) = (p.text, behind.flatMap Piece.text)) := by
  obtain ⟨front, quote, isQuote, text, read⟩ :=
    eachLiteral_iff.mp (eachLiteral_readsAsOpened [] source) earlier p behind split (isPiece.trans (congrArg some kind))
  rw [List.nil_append] at text read
  have whole := flatMap_text_pieces source
  rw [split, List.flatMap_append, List.flatMap_cons, text, ← List.append_assoc] at whole
  rw [text] at start read
  refine ⟨front, quote, text, ⟨kind, isQuote, whole.symm, start, ?_⟩, read⟩
  rw [stop, start, ← utf8Length_append]

theorem mem_regions_of_split {source : List Char} {earlier behind : List Piece} {p : Piece} {kind : RegionKind}
    (split : pieces source = earlier ++ p :: behind) (isKind : p.kind = some kind) :
    ⟨kind, utf8Length (earlier.flatMap Piece.text), utf8Length (earlier.flatMap Piece.text) + utf8Length p.text⟩ ∈
      regions source := by
  rw [regions, split, regionsFrom_append, regionsFrom, isKind]
  simp

theorem plain_of_isQuote (isQuote : quote = '"' ∨ quote = '\'') : quote ≠ '\\' := by
  rcases isQuote with rfl | rfl <;> decide

/-- A literal that is not verbatim goes up to its quote, to a line feed or to the end of the text, and a line feed is in
it exactly when the line of its quote leaves it open and ends in an escape. When no literal passes its line in this way,
blanking the blanked text changes nothing. -/
theorem ordinary_literals_end_with_line (source : List Char) :
    (∀ r ∈ regions source, r.kind = .literal → ∃ front quote body later, r.IsLiteral source front quote body later ∧
        (¬ OpensVerbatim (front ++ [quote]) → (∀ c ∈ later.head?, c = quote ∨ c = '\n') ∧
          ('\n' ∈ body ↔ TakesLineFeed quote (body ++ later)))) ∧
      ((∀ r ∈ regions source, ¬ r.PassesLine source) → blank (blank source) = blank source) := by
  have takes {front body later : List Char} {quote : Char} {r : Region}
      (literal : r.IsLiteral source front quote body later)
      (read : ordinaryBody quote (body ++ later) = (body, later)) :
      '\n' ∈ body ↔ TakesLineFeed quote (body ++ later) := by
    have taken := lineFeed_mem_ordinaryBody_iff (plain_of_isQuote literal.isQuote) (body ++ later)
    rwa [read] at taken
  constructor
  · intro r inside kind
    obtain ⟨earlier, p, behind, split, isPiece, start, stop⟩ := exists_piece_of_mem_regionsFrom inside
    rw [Nat.zero_add] at start
    obtain ⟨front, quote, -, literal, read⟩ := Region.isLiteral_of_split split isPiece kind start stop
    refine ⟨front, quote, _, _, literal, fun ordinary => ?_⟩
    have here := read.resolve_left ordinary
    have ends := ordinaryBody_head? quote (p.text ++ behind.flatMap Piece.text)
    rw [here] at ends
    exact ⟨ends, takes literal here⟩
  · intro none
    refine blank_blank_of_standsAlone [] source (standsAlone_nil source) (eachLiteral_iff.mpr ?_)
    intro earlier p behind split isLiteral
    let r : Region := ⟨.literal, utf8Length (earlier.flatMap Piece.text),
      utf8Length (earlier.flatMap Piece.text) + utf8Length p.text⟩
    have inside : r ∈ regions source := mem_regions_of_split split isLiteral
    obtain ⟨front, quote, text, literal, read⟩ := Region.isLiteral_of_split (r := r) split isLiteral rfl rfl rfl
    rw [List.nil_append, text]
    by_cases verbatim : OpensVerbatim (front ++ [quote])
    · exact .inl verbatim
    · have taken := takes literal (read.resolve_left verbatim)
      exact .inr fun feed => none r inside ⟨front, quote, _, _, literal, verbatim, taken.mp feed⟩

/-- A string that ends with its line behind two backslashes, a verbatim string that goes on behind its line, a quote
behind a backslash, and code. -/
def brokenText : List Char := "\"a\\\\\n@$\"b\\\n\" '\\'' x".toList

theorem ordinary_literals_end_with_line_broken :
    (∀ r ∈ regions brokenText, ¬ r.PassesLine brokenText) ∧ blank (blank brokenText) = blank brokenText ∧
      blank brokenText = "\"   \n@$\"  \n\" '  ' x".toList := by
  have found : regions brokenText = [⟨.literal, 1, 4⟩, ⟨.literal, 8, 11⟩, ⟨.literal, 14, 16⟩] := by decide +kernel
  have string : Region.IsLiteral brokenText ⟨.literal, 1, 4⟩ [] '"' "a\\\\".toList "\n@$\"b\\\n\" '\\'' x".toList :=
    ⟨rfl, .inl rfl, by decide, by decide, by decide⟩
  have verbatim :
      Region.IsLiteral brokenText ⟨.literal, 8, 11⟩ "\"a\\\\\n@$".toList '"' "b\\\n".toList "\" '\\'' x".toList :=
    ⟨rfl, .inl rfl, by decide, by decide, by decide⟩
  have character :
      Region.IsLiteral brokenText ⟨.literal, 14, 16⟩ "\"a\\\\\n@$\"b\\\n\" ".toList '\'' "\\'".toList "' x".toList :=
    ⟨rfl, .inr rfl, by decide, by decide, by decide⟩
  have closed {quote : Char} {behind : List Char} (plainQuote : quote ≠ '\\')
      (sameLine : '\n' ∉ (ordinaryBody quote behind).1) :
      ¬ TakesLineFeed quote behind := mt (lineFeed_mem_ordinaryBody_iff plainQuote behind).mpr sameLine
  have none : ∀ r ∈ regions brokenText, ¬ r.PassesLine brokenText := by
    rw [found]
    simp only [List.forall_mem_cons, string.passesLine_iff, verbatim.passesLine_iff, character.passesLine_iff]
    refine ⟨fun passes => closed (by decide) (by decide +kernel) passes.2, fun passes => passes.1 ?_,
      fun passes => closed (by decide) (by decide +kernel) passes.2, by simp⟩
    exact .inr ⟨"\"a\\\\\n".toList, by decide⟩
  exact ⟨none, (ordinary_literals_end_with_line brokenText).2 none, by decide +kernel⟩

/-- The string that a backslash at the end of the line leaves open. -/
def continuedText : List Char := "\"\\\n\"x".toList

/-- The line feed behind a backslash is in the literal, and the blanked text is blanked to another one. -/
theorem literal_passes_line :
    regions continuedText = [⟨.literal, 1, 3⟩] ∧ slice 1 3 continuedText = .ok ['\\', '\n'] ∧
      blank continuedText = "\" \n\"x".toList ∧ blank (blank continuedText) = "\" \n\" ".toList := by
  refine ⟨by decide +kernel, by decide +kernel, by decide +kernel, by decide +kernel⟩

end Typeahead.Source
