import Typeahead.Proofs.Catalog.TypeTerm
import Typeahead.Proofs.Source.TypeExpr

namespace Typeahead.Source

open Text Typeahead.TypeName

/-- A word as it stands in names: identifier characters, white space left out. -/
structure IsNameWord (word : String) : Prop where
  nonempty : word ≠ ""
  letters : ∀ c ∈ word.toList, isIdentifierChar c = true ∧ isBlank c = false

theorem IsNameWord.of_all {word : String} (nonempty : word ≠ "")
    (letters : (word.toList.all fun c => isIdentifierChar c && !isBlank c) = true) : IsNameWord word :=
  ⟨nonempty, fun c member => by simpa using List.all_eq_true.mp letters c member⟩

namespace TypeExpr

def path : TypeExpr → List String
  | mk _ path _ _ _ => path

def arguments : TypeExpr → List TypeExpr
  | mk _ _ arguments _ _ => arguments

/-- The array ranks, each given by its number of commas. -/
def commas : TypeExpr → List Nat
  | mk _ _ _ _ commas => commas

/-- The expression with other array ranks. -/
def withRanks : TypeExpr → List Nat → TypeExpr
  | mk head path arguments isNullable _, commas => mk head path arguments isNullable commas

/-- The dotted name. -/
def base (e : TypeExpr) : String := e.head.text ++ pathText e.path

def typeName (e : TypeExpr) : TypeName := ⟨e.text⟩

/-- What an array is an array of: the expression without its last rank. -/
def element? (e : TypeExpr) : Option TypeExpr := if e.commas = [] then none else some (e.withRanks e.commas.dropLast)

mutual

/-- All words of the expression can stand in names. -/
def IsSpelled : TypeExpr → Prop
  | mk head path arguments _ _ => IsNameWord head.text ∧ (∀ part ∈ path, IsNameWord part) ∧ AreSpelled arguments

def AreSpelled : List TypeExpr → Prop
  | [] => True
  | first :: others => first.IsSpelled ∧ AreSpelled others

end

theorem AreSpelled.of_mem : ∀ {es : List TypeExpr}, AreSpelled es → ∀ e ∈ es, e.IsSpelled
  | [], _, _, member => absurd member List.not_mem_nil
  | _ :: _, ⟨first, others⟩, _, member => by
    rcases List.mem_cons.mp member with rfl | later
    · exact first
    · exact others.of_mem _ later

theorem isSpelled_withRanks {e : TypeExpr} (spelled : e.IsSpelled) (commas : List Nat) :
    (e.withRanks commas).IsSpelled := by
  obtain ⟨head, path, arguments, isNullable, _⟩ := e
  exact spelled

section Spelling

/-- The characters that mark the structure of a type. -/
def structureMarks : List Char := ['<', '>', ',', '?', '[', ']']

theorem unmarked_of_mem_word {word : String} (isWord : IsNameWord word) {c : Char} (member : c ∈ word.toList) :
    c ∉ structureMarks ∧ isBlank c = false := by
  obtain ⟨letter, dark⟩ := isWord.letters c member
  refine ⟨fun isMark => ?_, dark⟩
  have none : structureMarks.all (!isIdentifierChar ·) = true := by decide
  have noLetter := List.all_eq_true.mp none c isMark
  simp [letter] at noLetter

theorem unmarked_of_mem_path {path : List String} (words : ∀ part ∈ path, IsNameWord part) {c : Char}
    (member : c ∈ (pathText path).toList) : c ∉ structureMarks ∧ isBlank c = false := by
  induction path with
  | nil => simp [pathText, String.join] at member
  | cons part path ih =>
    have parts : (pathText (part :: path)).toList = '.' :: (part.toList ++ (pathText path).toList) := by
      simp [pathText, String.join_cons]
    rw [parts, List.mem_cons, List.mem_append] at member
    rcases member with rfl | inPart | later
    · decide
    · exact unmarked_of_mem_word (words part List.mem_cons_self) inPart
    · exact ih (fun other inside => words other (List.mem_cons_of_mem _ inside)) later

theorem IsSpelled.unmarked_of_mem {e : TypeExpr} (spelled : e.IsSpelled) {c : Char} (member : c ∈ e.base.toList) :
    c ∉ structureMarks ∧ isBlank c = false := by
  obtain ⟨head, path, arguments, isNullable, commas⟩ := e
  obtain ⟨isWord, words, -⟩ := spelled
  rw [base, String.toList_append, List.mem_append] at member
  rcases member with inHead | inPath
  · exact unmarked_of_mem_word isWord inHead
  · exact unmarked_of_mem_path words inPath

theorem IsSpelled.isTrimmed_base {e : TypeExpr} (spelled : e.IsSpelled) : IsTrimmed e.base.toList where
  nonempty := by
    obtain ⟨head, path, arguments, isNullable, commas⟩ := e
    simp [base, TypeExpr.head, spelled.1.nonempty]
  first c first := (spelled.unmarked_of_mem (List.mem_of_mem_head? first)).2
  last c last := (spelled.unmarked_of_mem (List.mem_of_mem_getLast? last)).2

@[simp] theorem ranksText_nil : ranksText [] = "" := rfl

theorem toList_rankText (n : Nat) : (rankText n).toList = List.replicate n ',' ++ [']'] := by
  have separators : (String.join (List.replicate n ",")).toList = List.replicate n ',' := by
    induction n with
    | zero => rfl
    | succ n ih => simp [List.replicate_succ, String.join_cons, ih]
  rw [rankText, String.toList_append, separators]
  rfl

theorem toList_ranksText_cons (n : Nat) (commas : List Nat) :
    (ranksText (n :: commas)).toList = '[' :: (List.replicate n ',' ++ ']' :: (ranksText commas).toList) := by
  simp [ranksText, String.join_cons, toList_rankText]

theorem toList_ranksText_append (one other : List Nat) :
    (ranksText (one ++ other)).toList = (ranksText one).toList ++ (ranksText other).toList := by
  induction one with
  | nil => simp
  | cons n one ih => simp [toList_ranksText_cons, ih]

/-- The ranks stand at the end. -/
theorem toList_text_withRanks (e : TypeExpr) (one other : List Nat) :
    (e.withRanks (one ++ other)).text.toList = (e.withRanks one).text.toList ++ (ranksText other).toList := by
  obtain ⟨head, path, arguments, isNullable, commas⟩ := e
  simp [text, withRanks, marksText, toList_ranksText_append]

theorem toList_text_of_commas {e : TypeExpr} {one other : List Nat} (ranked : e.commas = one ++ other) :
    e.text.toList = (e.withRanks one).text.toList ++ (ranksText other).toList := by
  have same : e.withRanks e.commas = e := by cases e; rfl
  rw [← toList_text_withRanks, ← ranked, same]

theorem mem_of_mem_ranksText {commas : List Nat} {c : Char} (member : c ∈ (ranksText commas).toList) :
    c ∈ ['[', ',', ']'] := by
  induction commas with
  | nil => simp at member
  | cons n commas ih =>
    rw [toList_ranksText_cons, List.mem_cons, List.mem_append, List.mem_cons] at member
    rcases member with rfl | inRank | rfl | later
    · decide
    · rw [(List.mem_replicate.mp inRank).2]
      decide
    · decide
    · exact ih later

theorem comma_not_mem_ranksText {commas : List Nat} (single : ∀ n ∈ commas, n = 0) :
    ',' ∉ (ranksText commas).toList := by
  induction commas with
  | nil => simp
  | cons n commas ih =>
    obtain rfl : n = 0 := single n List.mem_cons_self
    have later := ih fun m inside => single m (List.mem_cons_of_mem _ inside)
    simpa [toList_ranksText_cons] using later

theorem getLast?_ranksText_concat (commas : List Nat) (n : Nat) :
    (ranksText (commas ++ [n])).toList.getLast? = some ']' := by
  have one : (ranksText [n]).toList = ('[' :: List.replicate n ',') ++ [']'] := by
    simp [toList_ranksText_cons]
  rw [toList_ranksText_append, one, ← List.append_assoc, List.getLast?_concat]

theorem getLast?_moreText (others : List TypeExpr) : (moreText others).toList.getLast? = some '>' := by
  induction others with
  | nil => rfl
  | cons next others ih =>
    rw [moreText, String.toList_append, List.getLast?_append, ih]
    rfl

/-- Without ranks an expression ends in its name, its arguments or the nullable marker. -/
theorem IsSpelled.last_withRanks_nil {e : TypeExpr} (spelled : e.IsSpelled) {c : Char}
    (last : (e.withRanks []).text.toList.getLast? = some c) : isBlank c = false ∧ c ≠ '[' ∧ c ≠ ']' := by
  have inBase := fun member => @IsSpelled.unmarked_of_mem e spelled c member
  obtain ⟨head, path, arguments, isNullable, commas⟩ := e
  cases isNullable with
  | true =>
    have parts : ((mk head path arguments true commas).withRanks []).text.toList =
        (head.text ++ pathText path ++ argumentsText arguments).toList ++ ['?'] := by
      simp [withRanks, text, marksText]
    rw [parts, List.getLast?_concat, Option.some.injEq] at last
    subst last
    decide
  | false =>
    have parts : ((mk head path arguments false commas).withRanks []).text.toList =
        (head.text ++ pathText path).toList ++ (argumentsText arguments).toList := by
      simp [withRanks, text, marksText]
    rw [parts, List.getLast?_append] at last
    cases arguments with
    | nil =>
      obtain ⟨noMark, dark⟩ := inBase (List.mem_of_mem_getLast? last)
      simp only [structureMarks, List.mem_cons, not_or] at noMark
      exact ⟨dark, noMark.2.2.2.2.1, noMark.2.2.2.2.2.1⟩
    | cons first others =>
      rw [argumentsText, String.toList_append, List.getLast?_append, getLast?_moreText] at last
      obtain rfl : '>' = c := by simpa using last
      decide

theorem IsSpelled.last_text {e : TypeExpr} (spelled : e.IsSpelled) {c : Char}
    (last : e.text.toList.getLast? = some c) :
    isBlank c = false ∧ c ≠ '[' := by
  rw [toList_text_of_commas (List.nil_append e.commas).symm] at last
  rcases List.eq_nil_or_concat e.commas with none | ⟨more, n, ranked⟩
  · rw [none] at last
    obtain ⟨dark, noSquare, -⟩ := spelled.last_withRanks_nil (by simpa using last)
    exact ⟨dark, noSquare⟩
  · rw [ranked, List.concat_eq_append, List.getLast?_append, getLast?_ranksText_concat] at last
    obtain rfl : ']' = c := by simpa using last
    decide

theorem isTrimmed_text {e : TypeExpr} (spelled : e.IsSpelled) : IsTrimmed e.text.toList where
  nonempty := by
    obtain ⟨head, path, arguments, isNullable, commas⟩ := e
    simp [text, spelled.1.nonempty]
  first c first := by
    obtain ⟨head, path, arguments, isNullable, commas⟩ := e
    have nonempty : head.text.toList ≠ [] := by simpa using spelled.1.nonempty
    obtain ⟨d, letters, eq⟩ := List.exists_cons_of_ne_nil nonempty
    have same : d = c := by simpa [text, eq] using first
    exact (spelled.1.letters c (by simp [eq, same])).2
  last c last := (spelled.last_text last).1

end Spelling

section Reading

theorem IsSpelled.passesOver_base {e : TypeExpr} (spelled : e.IsSpelled) (depth : Nat) :
    PassesOver depth e.base.toList := by
  refine passesOver_plain depth fun c member => ?_
  have noMark := (spelled.unmarked_of_mem member).1
  simp only [structureMarks, List.mem_cons, not_or] at noMark
  exact ⟨noMark.1, noMark.2.1, noMark.2.2.1⟩

theorem passesOver_ranks {commas : List Nat} {depth : Nat} (single : depth = 1 → ∀ n ∈ commas, n = 0) :
    PassesOver depth (ranksText commas).toList := by
  refine passesOver_marks (fun c member => ?_) fun comma one => comma_not_mem_ranksText (single one) comma
  have listed := mem_of_mem_ranksText member
  simp only [List.mem_cons, List.not_mem_nil, or_false] at listed
  rcases listed with rfl | rfl | rfl <;> decide

mutual

/-- An expression is read over as one piece; directly inside the list its ranks must have no commas. -/
theorem passesOver : ∀ (e : TypeExpr), e.IsSpelled → ∀ {depth : Nat}, 0 < depth →
    (depth = 1 → ∀ n ∈ e.commas, n = 0) → PassesOver depth e.text.toList
  | mk head path arguments isNullable commas, spelled, depth, inside, single => by
    have parts : (mk head path arguments isNullable commas).text.toList =
        (mk head path arguments isNullable commas).base.toList ++ ((argumentsText arguments).toList ++
          ((if isNullable then ['?'] else []) ++ (ranksText commas).toList)) := by
      cases isNullable <;> simp [text, base, TypeExpr.head, TypeExpr.path, marksText]
    have marker : PassesOver depth (if isNullable then ['?'] else []) :=
      passesOver_plain depth (by cases isNullable <;> simp)
    rw [parts]
    exact (spelled.passesOver_base depth).append ((passesOver_arguments arguments spelled.2.2 inside).append
      (marker.append (passesOver_ranks single)))

theorem passesOver_arguments : ∀ (arguments : List TypeExpr), AreSpelled arguments → ∀ {depth : Nat}, 0 < depth →
    PassesOver depth (argumentsText arguments).toList
  | [], _, _, _ => fun _ _ => rfl
  | first :: others, spelled, depth, inside => by
    intro current rest
    have deeper : depth + 1 = 1 → ∀ n ∈ first.commas, n = 0 := fun one => by omega
    have parts : (argumentsText (first :: others)).toList =
        '<' :: (first.text.toList ++ (moreText others).toList) := by
      simp [argumentsText]
    rw [parts, List.cons_append, argumentTexts, if_pos rfl, List.append_assoc,
      passesOver first spelled.1 depth.succ_pos deeper, closes others spelled.2 inside]
    simp

/-- The rest of an inner list, at whose end the reading is back in the outer one. -/
theorem closes : ∀ (others : List TypeExpr), AreSpelled others → ∀ {depth : Nat}, 0 < depth → ∀ current rest,
    argumentTexts (depth + 1) current ((moreText others).toList ++ rest) =
      argumentTexts depth ((moreText others).toList.reverse ++ current) rest
  | [], _, depth, inside, current, rest => by
    show argumentTexts (depth + 1) current ('>' :: rest) = _
    rw [argumentTexts, if_neg (by decide), if_pos rfl, if_neg (by omega)]
    rfl
  | next :: others, spelled, depth, inside, current, rest => by
    have deeper : depth + 1 = 1 → ∀ n ∈ next.commas, n = 0 := fun one => by omega
    have parts : (moreText (next :: others)).toList =
        [',', ' '] ++ (next.text.toList ++ (moreText others).toList) := by
      simp [moreText]
    have separator : PassesOver (depth + 1) [',', ' '] := passesOver_marks (by simp) fun _ => by omega
    rw [parts, List.append_assoc, separator, List.append_assoc, passesOver next spelled.1 depth.succ_pos deeper,
      closes others spelled.2 inside]
    simp

end

/-- Whatever follows, the reading of a text ends some arguments and is inside another one. -/
def EndsArguments (cs : List Char) : Prop :=
  ∀ current, ∃ ended last, ∀ rest, argumentTexts 1 current (cs ++ rest) = ended ++ argumentTexts 1 last rest

theorem EndsArguments.append {a b : List Char} (first : EndsArguments a) (second : EndsArguments b) :
    EndsArguments (a ++ b) := by
  intro current
  obtain ⟨ended, last, reads⟩ := first current
  obtain ⟨more, last', reads'⟩ := second last
  exact ⟨ended ++ more, last', fun rest => by rw [List.append_assoc, reads, reads', List.append_assoc]⟩

theorem endsArguments_of_passesOver {cs : List Char} (passes : PassesOver 1 cs) : EndsArguments cs :=
  fun current => ⟨[], cs.reverse ++ current, fun rest => passes current rest⟩

theorem endsArguments_marks {cs : List Char} (plain : ∀ c ∈ cs, c ≠ '<' ∧ c ≠ '>') : EndsArguments cs := by
  induction cs with
  | nil => exact fun current => ⟨[], current, fun _ => rfl⟩
  | cons c cs ih =>
    have later := ih fun x member => plain x (List.mem_cons_of_mem _ member)
    have here : EndsArguments [c] := by
      by_cases comma : c = ','
      · intro current
        refine ⟨[current.reverse], [], fun rest => ?_⟩
        rw [comma, List.singleton_append, argumentTexts, if_neg (by decide), if_neg (by decide), if_pos ⟨rfl, rfl⟩]
        rfl
      · refine endsArguments_of_passesOver (passesOver_plain 1 fun x member => ?_)
        obtain rfl := List.mem_singleton.mp member
        exact ⟨(plain x List.mem_cons_self).1, (plain x List.mem_cons_self).2, comma⟩
    exact here.append later

theorem endsArguments_ranks (commas : List Nat) : EndsArguments (ranksText commas).toList := by
  refine endsArguments_marks fun c member => ?_
  have listed := mem_of_mem_ranksText member
  simp only [List.mem_cons, List.not_mem_nil, or_false] at listed
  rcases listed with rfl | rfl | rfl <;> decide

theorem endsArguments_withRanks {e : TypeExpr} (spelled : e.IsSpelled) (commas : List Nat) :
    EndsArguments (e.withRanks commas).text.toList := by
  have bare : PassesOver 1 (e.withRanks []).text.toList :=
    passesOver _ (isSpelled_withRanks spelled []) Nat.one_pos fun _ => by cases e; simp [withRanks, TypeExpr.commas]
  rw [← List.nil_append commas, toList_text_withRanks]
  exact (endsArguments_of_passesOver bare).append (endsArguments_ranks commas)

theorem endsArguments_text {e : TypeExpr} (spelled : e.IsSpelled) : EndsArguments e.text.toList := by
  have same : e.withRanks e.commas = e := by cases e; rfl
  exact same ▸ endsArguments_withRanks spelled e.commas

/-- A comma in a rank ends an argument behind the opening bracket. -/
theorem exists_piece {e : TypeExpr} (spelled : e.IsSpelled) {n : Nat} (ranked : n ∈ e.commas) (wide : n ≠ 0)
    (current rest : List Char) :
    ∃ piece ∈ argumentTexts 1 current (e.text.toList ++ rest), piece.getLast? = some '[' := by
  obtain ⟨one, other, split⟩ := List.append_of_mem ranked
  obtain ⟨m, rfl⟩ := Nat.exists_eq_succ_of_ne_zero wide
  obtain ⟨ended, last, reads⟩ := endsArguments_withRanks spelled one current
  have parts : (ranksText ((m + 1) :: other)).toList =
      '[' :: ',' :: (List.replicate m ',' ++ ']' :: (ranksText other).toList) := by
    simp [toList_ranksText_cons, List.replicate_succ]
  refine ⟨('[' :: last).reverse, ?_, by simp⟩
  rw [toList_text_of_commas split, List.append_assoc, reads, parts, List.cons_append, List.cons_append, argumentTexts,
    if_neg (by decide), if_neg (by decide), if_neg (by decide), argumentTexts, if_neg (by decide), if_neg (by decide),
    if_pos ⟨rfl, rfl⟩]
  exact List.mem_append_right _ List.mem_cons_self

theorem argumentTexts_comma (current rest : List Char) :
    argumentTexts 1 current (',' :: ' ' :: rest) = current.reverse :: argumentTexts 1 [' '] rest := by
  rw [argumentTexts, if_neg (by decide), if_neg (by decide), if_pos ⟨rfl, rfl⟩, argumentTexts, if_neg (by decide),
    if_neg (by decide), if_neg (by decide)]

theorem toList_moreText_cons (next : TypeExpr) (others : List TypeExpr) :
    (moreText (next :: others)).toList = ',' :: ' ' :: (next.text.toList ++ (moreText others).toList) := by
  simp [moreText]

/-- The other arguments of a list, each behind one blank. -/
theorem argumentTexts_moreText : ∀ {others : List TypeExpr}, AreSpelled others →
    (∀ a ∈ others, ∀ n ∈ a.commas, n = 0) → ∀ current rest,
    argumentTexts 1 current ((moreText others).toList ++ rest) =
      current.reverse :: others.map fun a => ' ' :: a.text.toList
  | [], _, _, current, rest => by
    show argumentTexts 1 current ('>' :: rest) = _
    rw [argumentTexts, if_neg (by decide), if_pos rfl, if_pos le_rfl]
    rfl
  | next :: others, spelled, single, current, rest => by
    have whole := passesOver next spelled.1 Nat.one_pos fun _ => single next List.mem_cons_self
    rw [toList_moreText_cons, List.cons_append, List.cons_append, argumentTexts_comma, List.append_assoc, whole,
      argumentTexts_moreText spelled.2 fun a member => single a (List.mem_cons_of_mem _ member)]
    simp

theorem exists_piece_moreText : ∀ {others : List TypeExpr}, AreSpelled others → ∀ a ∈ others, ∀ n ∈ a.commas, n ≠ 0 →
    ∀ current rest,
    ∃ piece ∈ argumentTexts 1 current ((moreText others).toList ++ rest), piece.getLast? = some '['
  | [], _, _, member, _, _, _, _, _ => absurd member List.not_mem_nil
  | next :: others, spelled, a, member, n, ranked, wide, current, rest => by
    rw [toList_moreText_cons, List.cons_append, List.cons_append, argumentTexts_comma, List.append_assoc]
    rcases List.mem_cons.mp member with rfl | later
    · obtain ⟨piece, inside, last⟩ := exists_piece spelled.1 ranked wide [' '] ((moreText others).toList ++ rest)
      exact ⟨piece, List.mem_cons_of_mem _ inside, last⟩
    · obtain ⟨ended, within, reads⟩ := endsArguments_text spelled.1 [' ']
      obtain ⟨piece, inside, last⟩ := exists_piece_moreText spelled.2 a later n ranked wide within rest
      rw [reads]
      exact ⟨piece, List.mem_cons_of_mem _ (List.mem_append_right _ inside), last⟩

end Reading

section Decoding

theorem getLast?_trim {cs : List Char} {c : Char} (last : cs.getLast? = some c) (dark : isBlank c = false) :
    (trim cs).getLast? = some c := by
  obtain ⟨front, rfl⟩ := List.getLast?_eq_some_iff.mp last
  have notBlank : ¬ isBlank c = true := by simp [dark]
  obtain ⟨core, start⟩ : ∃ core, trimStart (front ++ [c]) = core ++ [c] := by
    rw [trimStart, List.dropWhile_append]
    split
    · exact ⟨[], List.dropWhile_cons_of_neg notBlank⟩
    · exact ⟨_, rfl⟩
  have stop : trimEnd (core ++ [c]) = core ++ [c] := by
    rw [trimEnd, List.reverse_append, List.reverse_singleton, List.singleton_append,
      List.dropWhile_cons_of_neg notBlank]
    simp
  rw [trim, start, stop, List.getLast?_concat]

section Parts

variable {head : Name} {path : List String} {first : TypeExpr} {others : List TypeExpr} {isNullable : Bool}
  {commas : List Nat}

theorem toList_text_nil :
    (mk head path [] isNullable commas).text.toList =
      (mk head path [] isNullable commas).base.toList ++ (if isNullable then ['?'] else []) ++
        (ranksText commas).toList := by
  cases isNullable <;> simp [text, base, TypeExpr.head, TypeExpr.path, argumentsText, marksText]

theorem toList_text_cons :
    (mk head path (first :: others) isNullable commas).text.toList =
      (mk head path (first :: others) isNullable commas).base.toList ++ '<' ::
        (first.text.toList ++ ((moreText others).toList ++ (marksText isNullable commas).toList)) := by
  simp [text, base, TypeExpr.head, TypeExpr.path, argumentsText]

theorem arguments_typeName_nil (spelled : (mk head path [] isNullable commas).IsSpelled) :
    (mk head path [] isNullable commas).typeName.arguments = [] := by
  have noAngle : ∀ c ∈ (mk head path [] isNullable commas).text.toList, (c == '<') = false := by
    intro c member
    rw [toList_text_nil, List.mem_append, List.mem_append] at member
    rcases member with (inBase | inMarker) | inRanks
    · exact beq_eq_false_iff_ne.mpr fun same => (spelled.unmarked_of_mem inBase).1 (same ▸ List.mem_cons_self)
    · obtain ⟨-, rfl⟩ : isNullable = true ∧ c = '?' := by simpa using inMarker
      rfl
    · have listed := mem_of_mem_ranksText inRanks
      exact beq_eq_false_iff_ne.mpr fun same => absurd (same ▸ listed) (by decide)
  rw [typeName, TypeName.arguments, breakFirst_eq_none noAngle]

/-- Behind the first opening bracket the arguments are cut apart and trimmed. -/
theorem arguments_typeName_cons (spelled : (mk head path (first :: others) isNullable commas).IsSpelled) :
    (mk head path (first :: others) isNullable commas).typeName.arguments =
      ((((argumentTexts 1 [] (first.text.toList ++ ((moreText others).toList ++
        (marksText isNullable commas).toList))).map trim).filter (!·.isEmpty)).map fun a => ⟨String.ofList a⟩) := by
  have noAngle : ∀ c ∈ (mk head path (first :: others) isNullable commas).base.toList, (c == '<') = false :=
    fun c member => beq_eq_false_iff_ne.mpr fun same => (spelled.unmarked_of_mem member).1 (same ▸ List.mem_cons_self)
  rw [typeName, TypeName.arguments, toList_text_cons, breakFirst_append noAngle (by decide)]

end Parts

/-- A piece of an argument that ends in an opening bracket is no argument. -/
theorem not_mem_texts {es : List TypeExpr} (spelled : AreSpelled es) {piece : List Char}
    (opened : piece.getLast? = some '[') : (⟨String.ofList (trim piece)⟩ : TypeName) ∉ es.map typeName := by
  intro listed
  obtain ⟨b, inside, same⟩ := List.mem_map.mp listed
  have whole : b.text.toList = trim piece := by
    have texts : b.text = String.ofList (trim piece) := congrArg TypeName.text same
    rw [texts, String.toList_ofList]
  have last : b.text.toList.getLast? = some '[' := whole ▸ getLast?_trim opened (by decide)
  exact ((spelled.of_mem b inside).last_text last).2 rfl

/-- The arguments of the list are found exactly if none of them has, outside its own arguments, a rank with a
comma. -/
theorem arguments_typeName_iff {e : TypeExpr} (spelled : e.IsSpelled) :
    e.typeName.arguments = e.arguments.map typeName ↔ ∀ a ∈ e.arguments, ∀ n ∈ a.commas, n = 0 := by
  obtain ⟨head, path, arguments, isNullable, commas⟩ := e
  have areSpelled : AreSpelled arguments := spelled.2.2
  match arguments with
  | [] => simp [arguments_typeName_nil spelled, TypeExpr.arguments]
  | first :: others =>
    rw [arguments_typeName_cons spelled]
    simp only [TypeExpr.arguments]
    constructor
    · intro same a member n ranked
      by_contra wide
      obtain ⟨piece, inside, opened⟩ : ∃ piece ∈ argumentTexts 1 [] (first.text.toList ++ ((moreText others).toList ++
          (marksText isNullable commas).toList)), piece.getLast? = some '[' := by
        rcases List.mem_cons.mp member with rfl | later
        · exact exists_piece areSpelled.1 ranked wide [] _
        · obtain ⟨ended, last, reads⟩ := endsArguments_text areSpelled.1 []
          obtain ⟨piece, inside, opened⟩ := exists_piece_moreText areSpelled.2 a later n ranked wide last
            (marksText isNullable commas).toList
          exact ⟨piece, by rw [reads]; exact List.mem_append_right _ inside, opened⟩
      have kept : (!(trim piece).isEmpty) = true := by
        have last := getLast?_trim opened (by decide)
        cases empty : trim piece with
        | nil => simp [empty] at last
        | cons => rfl
      refine not_mem_texts areSpelled opened (same ▸ List.mem_map_of_mem ?_)
      exact List.mem_filter.mpr ⟨List.mem_map_of_mem inside, kept⟩
    · intro single
      have firstPasses := passesOver first areSpelled.1 Nat.one_pos fun _ => single first List.mem_cons_self
      have read := argumentTexts_moreText areSpelled.2 fun a member => single a (List.mem_cons_of_mem _ member)
      have trimmed : ∀ a ∈ first :: others, trim a.text.toList = a.text.toList := fun a member =>
        (isTrimmed_text (areSpelled.of_mem a member)).trim_eq
      have behindBlank : ∀ a ∈ others, trim (' ' :: a.text.toList) = a.text.toList := fun a member =>
        trimmed a (List.mem_cons_of_mem _ member)
      have texts : ((first.text.toList :: others.map fun a => ' ' :: a.text.toList).map trim) =
          (first :: others).map (·.text.toList) := by
        rw [List.map_cons, List.map_map, List.map_cons, trimmed first List.mem_cons_self]
        exact congrArg _ (List.map_congr_left behindBlank)
      have nonempty : ∀ cs ∈ (first :: others).map (·.text.toList), (!cs.isEmpty) = true := by
        intro cs member
        obtain ⟨a, inside, rfl⟩ := List.mem_map.mp member
        simpa using (isTrimmed_text (areSpelled.of_mem a inside)).nonempty
      rw [firstPasses, read, List.append_nil, List.reverse_reverse, texts, List.filter_eq_self.mpr nonempty,
        List.map_map]
      exact List.map_congr_left fun a _ => congrArg TypeName.mk (String.ofList_toList)

/-- The base is the dotted name; a word of the language stands for its type. -/
theorem canonicalBase_typeName {e : TypeExpr} (spelled : e.IsSpelled) :
    e.typeName.canonicalBase = (keywordAlias? e.base).getD e.base := by
  have unmarked : ∀ c ∈ e.base.toList, c ≠ '<' ∧ c ≠ '[' ∧ c ≠ '?' := by
    intro c member
    have noMark := (spelled.unmarked_of_mem member).1
    simp only [structureMarks, List.mem_cons, not_or] at noMark
    exact ⟨noMark.1, noMark.2.2.2.2.1, noMark.2.2.2.1⟩
  have read (markers rest : List Char) (whole : e.text.toList = e.base.toList ++ markers ++ rest)
      (nullable : ∀ c ∈ markers, c = '?') (behind : ∀ c ∈ rest.head?, c = '<' ∨ c = '[') :
      e.typeName.canonicalBase = (keywordAlias? e.base).getD e.base := by
    have base := canonicalBase_text spelled.isTrimmed_base unmarked nullable behind
    rwa [← whole, String.ofList_toList, String.ofList_toList] at base
  obtain ⟨head, path, arguments, isNullable, commas⟩ := e
  cases arguments with
  | nil =>
    refine read _ _ toList_text_nil (by cases isNullable <;> simp) fun c first => ?_
    cases commas with
    | nil => simp at first
    | cons n more =>
      rw [toList_ranksText_cons, List.head?_cons] at first
      exact .inr (Option.some.inj first).symm
  | cons first others =>
    have whole := @toList_text_cons head path first others isNullable commas
    rw [← List.append_nil (base _).toList] at whole
    exact read [] _ whole (by simp) fun c opening => .inl (Option.some.inj opening).symm

/-- An array ends in a rank, and its element type is what stands in front of the rank. -/
theorem arrayElement?_typeName {e : TypeExpr} (spelled : e.IsSpelled) :
    e.typeName.arrayElement? = e.element?.map typeName := by
  rcases List.eq_nil_or_concat e.commas with none | ⟨more, n, ranked⟩
  · have same : e.withRanks [] = e := none ▸ (by cases e; rfl)
    have noArray : e.typeName.isArray = false := by
      refine beq_eq_false_iff_ne.mpr fun closed => ?_
      exact (spelled.last_withRanks_nil (same.symm ▸ closed)).2.2 rfl
    rw [TypeName.arrayElement?, noArray, element?, if_pos none]
    rfl
  · rw [List.concat_eq_append] at ranked
    have parts : e.text.toList = (e.withRanks more).text.toList ++ '[' :: (List.replicate n ',' ++ [']']) := by
      rw [toList_text_of_commas ranked, toList_ranksText_cons]
      simp
    have isArray : e.typeName.isArray = true := by
      rw [TypeName.isArray, typeName, parts, ← List.cons_append, ← List.append_assoc, List.getLast?_concat]
      rfl
    have noSquare : ∀ c ∈ List.replicate n ',' ++ [']'], (c == '[') = false := by
      intro c member
      rcases List.mem_append.mp member with comma | closing
      · rw [(List.mem_replicate.mp comma).2]
        rfl
      · rw [List.mem_singleton.mp closing]
        rfl
    have last := fun c => @IsSpelled.last_text _ (isSpelled_withRanks spelled more) c
    have ranks : e.commas ≠ [] := by simp [ranked]
    rw [TypeName.arrayElement?, isArray, typeName, parts, breakLast_append (by decide) noSquare, element?,
      if_neg ranks, ranked, List.dropLast_concat]
    simp only [if_true, Option.map_some, trimEnd_eq fun c here => (last c here).1, String.ofList_toList]
    rfl

end Decoding

/-- A type expression is read from its tokens in its normal spelling, and from the spelling are read its base, its
element type, and its arguments if none of them has, outside its own arguments, a rank with a comma. -/
theorem text_decodes (e : TypeExpr) (spelled : e.IsSpelled) :
    (∀ ts rest, ts.map (·.lexeme) = e.lexemes → EndsType rest → readType? (ts ++ rest) = some (e.text, rest)) ∧
      (e.typeName.arguments = e.arguments.map typeName ↔ ∀ a ∈ e.arguments, ∀ n ∈ a.commas, n = 0) ∧
      e.typeName.canonicalBase = (keywordAlias? e.base).getD e.base ∧
      e.typeName.arrayElement? = e.element?.map typeName :=
  ⟨fun _ _ => readType?_expr, arguments_typeName_iff spelled, canonicalBase_typeName spelled,
    arrayElement?_typeName spelled⟩

def stringType : TypeExpr := .named { text := "string" }

def gridType : TypeExpr := .mk { text := "int" } [] [] false [1]

/-- A comma two lists deep, and ranks behind the outer list. -/
def shelfType : TypeExpr :=
  .mk { text := "N" } ["Map"] [stringType, .mk { text := "List" } [] [gridType] false [0]] true [0, 1]

theorem text_decodes_shelf :
    shelfType.text = "N.Map<string, List<int[,]>[]>?[][,]" ∧
      (⟨"N.Map<string, List<int[,]>[]>?[][,]"⟩ : TypeName).arguments = [⟨"string"⟩, ⟨"List<int[,]>[]"⟩] ∧
      (⟨"N.Map<string, List<int[,]>[]>?[][,]"⟩ : TypeName).canonicalBase = "N.Map" ∧
      (⟨"N.Map<string, List<int[,]>[]>?[][,]"⟩ : TypeName).arrayElement? =
        some ⟨"N.Map<string, List<int[,]>[]>?[]"⟩ := by
  have map : IsNameWord "Map" := .of_all (by decide) (by decide)
  have spelled : shelfType.IsSpelled :=
    ⟨.of_all (by decide) (by decide), by simpa using map,
      ⟨.of_all (by decide) (by decide), by simp, trivial⟩,
      ⟨.of_all (by decide) (by decide), by simp,
        ⟨.of_all (by decide) (by decide), by simp, trivial⟩, trivial⟩, trivial⟩
  have whole : shelfType.text = "N.Map<string, List<int[,]>[]>?[][,]" := by decide +kernel
  obtain ⟨-, arguments, base, element⟩ := shelfType.text_decodes spelled
  rw [typeName, whole] at arguments base element
  have single : ∀ a ∈ shelfType.arguments, ∀ n ∈ a.commas, n = 0 := by decide
  refine ⟨whole, (arguments.mpr single).trans (by decide +kernel), base.trans (by decide +kernel),
    element.trans (by decide +kernel)⟩

/-- The comma of a rank is taken for one between arguments. -/
theorem comma_of_rank_divides_argument :
    let e : TypeExpr := .mk { text := "Dictionary" } [] [stringType, gridType] false []
    e.text = "Dictionary<string, int[,]>" ∧ e.typeName.arguments = [⟨"string"⟩, ⟨"int["⟩, ⟨"]"⟩] ∧
      e.typeName.arguments ≠ e.arguments.map typeName := by
  decide +kernel

end TypeExpr

end Typeahead.Source
