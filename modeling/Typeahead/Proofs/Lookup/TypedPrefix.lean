import Typeahead.Lookup.Pattern
import Typeahead.Proofs.Text.Clusters
import Typeahead.Text.Place

namespace Typeahead.Lookup

open Text

/-- The text ends in a dollar sign without a backslash in front of it. -/
def EndsInOperator (cs : List Char) : Prop := ['$'] <:+ cs ∧ ¬ ['\\', '$'] <:+ cs

/-- The text of an atom begins or ends with an operator. -/
def HasOperator (text : List Char) : Prop :=
  (∃ c ∈ text.head?, c ∈ ['!', '^', '\'']) ∨ EndsInOperator text

instance (text : List Char) : Decidable (HasOperator text) :=
  -- looks at the one character, not at every character there is
  have : Decidable (∃ c ∈ text.head?, c ∈ ['!', '^', '\'']) := text.head?.decidableExistsMem
  inferInstanceAs (Decidable ((∃ c ∈ text.head?, c ∈ ['!', '^', '\'']) ∨ (['$'] <:+ text ∧ ¬ ['\\', '$'] <:+ text)))

/-- An atom without operators: its characters in their order. -/
def Atom.IsPlain (a : Atom) : Prop := a.isNegative = false ∧ a.kind = .subsequence

section Reading

variable {text cs : List Char} {kind : AtomKind}

theorem endsInOperator_cons {c d : Char} (other : d ≠ '$') :
    EndsInOperator (c :: d :: cs) ↔ EndsInOperator (d :: cs) := by
  simp [EndsInOperator, List.suffix_cons_iff (a := c), other.symm]

theorem readNegation_cases (text : List Char) :
    (∃ cs, text = '!' :: cs ∧ readNegation text = (true, cs)) ∨
      (∃ cs, text = '\\' :: '!' :: cs ∧ readNegation text = (false, '!' :: cs)) ∨
      (text.head? ≠ some '!' ∧ readNegation text = (false, text)) := by
  unfold readNegation
  split
  · exact .inl ⟨_, rfl, rfl⟩
  · exact .inr (.inl ⟨_, rfl, rfl⟩)
  · next plain _ =>
    refine .inr (.inr ⟨fun first => ?_, rfl⟩)
    obtain ⟨cs, rfl⟩ := List.head?_eq_some_iff.mp first
    exact plain cs rfl

theorem readKind_cases (text : List Char) :
    (∃ c cs, text = c :: cs ∧ c ∈ ['^', '\''] ∧ (readKind text).1 ≠ .subsequence) ∨
      (∃ c cs, text = '\\' :: c :: cs ∧ c ∈ ['^', '\''] ∧ readKind text = (.subsequence, c :: cs)) ∨
      ((∀ c ∈ text.head?, c ∉ ['^', '\'']) ∧ readKind text = (.subsequence, text)) := by
  unfold readKind
  split
  · exact .inl ⟨_, _, rfl, by simp, by simp⟩
  · exact .inl ⟨_, _, rfl, by simp, by simp⟩
  · exact .inr (.inl ⟨_, _, rfl, by simp, rfl⟩)
  · exact .inr (.inl ⟨_, _, rfl, by simp, rfl⟩)
  · next start run _ _ =>
    refine .inr (.inr ⟨fun c first => ?_, rfl⟩)
    obtain ⟨cs, rfl⟩ := List.head?_eq_some_iff.mp first
    simp only [List.mem_cons, List.not_mem_nil, or_false, not_or]
    exact ⟨fun same => start cs (same ▸ rfl), fun same => run cs (same ▸ rfl)⟩

theorem readEnd_cases (kind : AtomKind) (cs : List Char) :
    (∃ before, cs = before ++ ['\\', '$'] ∧ readEnd kind cs = (kind, before, true)) ∨
      (EndsInOperator cs ∧ (readEnd kind cs).1 ≠ .subsequence) ∨
      (¬ ['$'] <:+ cs ∧ readEnd kind cs = (kind, cs, false)) := by
  have reversed (back : List Char) {before : List Char} (shape : cs.reverse = back ++ before) :
      cs = before.reverse ++ back.reverse := by
    rw [← List.reverse_append, ← shape, List.reverse_reverse]
  unfold readEnd
  split
  · next before shape =>
    exact .inl ⟨before.reverse, reversed ['$', '\\'] shape, rfl⟩
  · next before plain shape =>
    refine .inr (.inl ⟨⟨⟨before.reverse, (reversed ['$'] shape).symm⟩, ?_⟩, ?_⟩)
    · rintro ⟨front, rfl⟩
      rw [List.reverse_append] at shape
      obtain ⟨-, rfl⟩ := List.cons.inj shape
      exact plain _ rfl
    · simp only
      split <;> simp
  · next escaped plain =>
    refine .inr (.inr ⟨?_, rfl⟩)
    rintro ⟨front, rfl⟩
    exact plain _ (List.reverse_append ..)

theorem of_readEnd_subsequence (stop : (readEnd kind cs).1 = .subsequence) :
    kind = .subsequence ∧ ¬ EndsInOperator cs := by
  rcases readEnd_cases kind cs with ⟨before, rfl, read⟩ | ⟨-, asks⟩ | ⟨noDollar, read⟩
  · rw [read] at stop
    exact ⟨stop, fun ends => ends.2 (List.suffix_append ..)⟩
  · exact absurd stop asks
  · rw [read] at stop
    exact ⟨stop, fun ends => noDollar ends.1⟩

end Reading

/-- How an atom reads: its negation, its kind and its end, one after the other. -/
theorem parse_eq (text : List Char) :
    Atom.parse text =
      let negation := readNegation text
      let start := readKind negation.2
      let stop := readEnd start.1 start.2
      { kind := if negation.1 ∧ stop.1 = .subsequence then .substring else stop.1
        needle := readNeedle stop.2.1 ++ if stop.2.2 then ['$'] else []
        isNegative := negation.1
        comparesBase := (readNeedle stop.2.1).all fun c => baseLetter c == c
        isAscii := isAsciiText stop.2.1 } := rfl

/-- A text without an operator is read without its escapes in front of operators. -/
theorem reads_of_not_hasOperator {text : List Char} (plain : ¬ HasOperator text) :
    ∃ body, body.Sublist text ∧ ('\\' ∉ text → body = text) ∧ ¬ EndsInOperator body ∧
      (readNegation text).1 = false ∧ readKind (readNegation text).2 = (.subsequence, body) := by
  obtain ⟨noStart, noEnd⟩ := not_or.mp plain
  have first {c : Char} {cs : List Char} (shape : text = c :: cs) : c ∉ ['!', '^', '\''] := fun mark =>
    noStart ⟨c, by rw [shape]; rfl, mark⟩
  have escaped {c : Char} {cs : List Char} (shape : text = '\\' :: c :: cs) (other : c ≠ '$') :
      (c :: cs).Sublist text ∧ ('\\' ∉ text → c :: cs = text) ∧ ¬ EndsInOperator (c :: cs) := by
    subst shape
    exact ⟨List.sublist_cons_self .., fun none => absurd List.mem_cons_self none,
      fun ends => noEnd ((endsInOperator_cons other).mpr ends)⟩
  rcases readNegation_cases text with ⟨cs, shape, -⟩ | ⟨cs, shape, read⟩ | ⟨-, read⟩
  · exact absurd (by simp) (first shape)
  · obtain ⟨sub, whole, ends⟩ := escaped shape (by decide)
    exact ⟨'!' :: cs, sub, whole, ends, by rw [read], by rw [read]; rfl⟩
  · rw [read]
    rcases readKind_cases text with ⟨c, cs, shape, mark, -⟩ | ⟨c, cs, shape, mark, read⟩ | ⟨-, read⟩
    · exact absurd (List.mem_cons_of_mem _ mark) (first shape)
    · have other : c ≠ '$' := by
        rintro rfl
        exact absurd mark (by decide)
      obtain ⟨sub, whole, ends⟩ := escaped shape other
      exact ⟨c :: cs, sub, whole, ends, rfl, read⟩
    · exact ⟨text, .refl _, fun _ => rfl, noEnd, rfl, read⟩

/-- What an atom without operators looks for is written in it: all of it if it holds no backslash. -/
theorem exists_parse_eq {text : List Char} (plain : ¬ HasOperator text) :
    ∃ core dollar, (core ++ if dollar then ['$'] else []).Sublist text ∧
      ('\\' ∉ text → core = text ∧ dollar = false) ∧
      Atom.parse text = {
        kind := .subsequence
        needle := readNeedle core ++ if dollar then ['$'] else []
        comparesBase := (readNeedle core).all fun c => baseLetter c == c
        isAscii := isAsciiText core } := by
  obtain ⟨body, sub, whole, noEnd, negation, start⟩ := reads_of_not_hasOperator plain
  have parsed (core : List Char) (dollar : Bool) (stop : readEnd .subsequence body = (.subsequence, core, dollar)) :
      Atom.parse text = {
        kind := .subsequence
        needle := readNeedle core ++ if dollar then ['$'] else []
        comparesBase := (readNeedle core).all fun c => baseLetter c == c
        isAscii := isAsciiText core } := by
    simp [parse_eq, negation, start, stop]
  rcases readEnd_cases .subsequence body with ⟨core, rfl, stop⟩ | ⟨ends, -⟩ | ⟨-, stop⟩
  · refine ⟨core, true, ?_, fun none => ?_, parsed _ _ stop⟩
    · have inside : (core ++ ['$']).Sublist (core ++ ['\\', '$']) := .append_left (List.sublist_cons_self ..) core
      exact inside.trans sub
    · have member : '\\' ∈ core ++ ['\\', '$'] := by simp
      exact absurd (sub.mem member) none
  · exact absurd ends noEnd
  · refine ⟨body, false, by simpa using sub, fun none => ⟨whole none, rfl⟩, parsed _ _ stop⟩

/-- An atom is plain if its text has no operator, and only then. -/
theorem isPlain_parse_iff (text : List Char) : (Atom.parse text).IsPlain ↔ ¬ HasOperator text := by
  constructor
  · rintro ⟨positive, kind⟩ operator
    rw [parse_eq] at positive kind
    simp only at positive kind
    simp only [positive, Bool.false_eq_true, false_and, if_false] at kind
    obtain ⟨subsequence, noEnd⟩ := of_readEnd_subsequence kind
    have escaped {c : Char} {cs : List Char} (shape : text = '\\' :: c :: cs) (other : c ≠ '$') :
        EndsInOperator (c :: cs) := by
      rcases operator with ⟨d, first, mark⟩ | ends
      · rw [shape, List.head?_cons, Option.mem_some_iff] at first
        exact absurd (first ▸ mark) (by decide)
      · exact (endsInOperator_cons other).mp (shape ▸ ends)
    rcases readNegation_cases text with ⟨cs, -, read⟩ | ⟨cs, shape, read⟩ | ⟨first, read⟩
    · rw [read] at positive
      exact Bool.noConfusion positive
    · rw [read] at noEnd
      exact noEnd (escaped shape (by decide))
    · rw [read] at noEnd subsequence
      rcases readKind_cases text with ⟨c, cs, -, -, asks⟩ | ⟨c, cs, shape, mark, read⟩ | ⟨noMark, read⟩
      · exact asks subsequence
      · rw [read] at noEnd
        exact noEnd (escaped shape fun same => absurd (same ▸ mark) (by decide))
      · rw [read] at noEnd
        rcases operator with ⟨c, isFirst, mark⟩ | ends
        · rcases List.mem_cons.mp mark with rfl | mark
          · exact first isFirst
          · exact noMark c isFirst mark
        · exact noEnd ends
  · intro plain
    obtain ⟨core, dollar, -, -, parsed⟩ := exists_parse_eq plain
    rw [parsed]
    exact ⟨rfl, rfl⟩

section Searching

variable {a : Atom} {chosen letters : List Char}

theorem sublist_dropWhile {p : Char → Bool} {c : Char} (sub : (c :: chosen).Sublist letters) (stops : p c = false) :
    (c :: chosen).Sublist (letters.dropWhile p) := by
  induction letters with
  | nil => exact sub
  | cons d letters ih =>
    rw [List.dropWhile_cons]
    split
    · next passes =>
      rcases List.sublist_cons_iff.mp sub with later | ⟨rest, same, -⟩
      · exact ih later
      · obtain ⟨rfl, -⟩ := List.cons.inj same
        rw [stops] at passes
        exact Bool.noConfusion passes
    · exact sub

/-- Letters that make the needle stand between the first and the last that may begin and end it. -/
theorem sublist_window (sub : chosen.Sublist letters) (seen : chosen.map a.normalize = a.needle)
    (several : 2 ≤ chosen.length) : chosen.Sublist (a.window letters) := by
  obtain ⟨first, more, rfl⟩ : ∃ first more, chosen = first :: more := by
    cases chosen with
    | nil => simp at several
    | cons first more => exact ⟨first, more, rfl⟩
  have nonempty : more ≠ [] := by
    rintro rfl
    simp at several
  have begins : (some (a.normalize first) != a.needle.head?) = false := by simp [← seen]
  obtain ⟨earlier, last, rfl⟩ : ∃ earlier last, more = earlier ++ [last] :=
    ⟨_, _, (List.dropLast_concat_getLast nonempty).symm⟩
  have ends : (some (a.normalize last) != a.needle.getLast?) = false := by simp [← seen, List.getLast?_cons]
  -- what ends in the last letter stays when the letters behind the last one that may end the needle go
  have keepsEnd (part : List Char) {rest : List Char} (inside : (part ++ [last]).Sublist rest) :
      (part ++ [last]).Sublist (rest.reverse.dropWhile fun c => some (a.normalize c) != a.needle.getLast?).reverse := by
    have reversed : (last :: part.reverse).Sublist rest.reverse := by
      have turned := List.reverse_sublist.mpr inside
      rwa [List.reverse_append] at turned
    have kept := sublist_dropWhile (p := fun c => some (a.normalize c) != a.needle.getLast?) reversed ends
    have turned := List.reverse_sublist.mpr kept
    rwa [List.reverse_cons, List.reverse_reverse] at turned
  have found := sublist_dropWhile (p := fun c => some (a.normalize c) != a.needle.head?) sub begins
  unfold Atom.window
  simp only
  cases behind : letters.dropWhile fun c => some (a.normalize c) != a.needle.head? with
  | nil =>
    rw [behind] at found
    exact absurd found (by simp)
  | cons b rest =>
    rw [behind] at found
    rw [List.take_succ_cons, List.take_zero, List.drop_succ_cons, List.drop_zero, List.singleton_append]
    rcases List.sublist_cons_iff.mp found with later | ⟨_, same, others⟩
    · exact (keepsEnd (first :: earlier) later).cons b
    · obtain ⟨rfl, rfl⟩ := List.cons.inj same
      exact (keepsEnd earlier others).cons_cons first

/-- An atom of a mere subsequence is found where some letters make its needle, in whatever way it compares them. -/
theorem finds_of_sublist {name : SearchedName} (kind : a.kind = .subsequence) (nonempty : a.needle ≠ [])
    (ascii : name.isAscii = true → a.isAscii = true) (sub : chosen.Sublist name.letters)
    (seen : chosen.map (if name.isAscii then Char.toLower else a.normalize) = a.needle)
    (searched : name.isAscii = false → chosen.map a.normalizeSearched = a.needle) : a.finds name = true := by
  have within : a.needle.Sublist (a.see name) := seen ▸ sub.map _
  have length : chosen.length = a.needle.length := by rw [← seen, List.length_map]
  have comparable : ¬ (name.isAscii && !a.isAscii) = true := by
    cases isAscii : name.isAscii with
    | false => simp
    | true => simp [ascii isAscii]
  rw [Atom.finds, if_neg comparable, kind]
  simp only
  by_cases longer : a.needle.length < name.letters.length
  · rw [if_pos (by simpa using longer), Atom.findsWithin]
    split
    · exact List.isSublist_iff_sublist.mpr within
    · next other =>
      simp only [Bool.or_eq_true, beq_iff_eq, not_or, Bool.not_eq_true] at other
      obtain ⟨notAscii, several⟩ := other
      have two : 2 ≤ chosen.length := by
        have := List.length_pos_iff.mpr nonempty
        omega
      rw [notAscii] at seen
      have inWindow := sublist_window sub seen two
      simp only
      split
      · next short =>
        have all : chosen = a.window name.letters := inWindow.eq_of_length_le (by omega)
        rw [← all]
        simpa using seen.symm
      · have searchedWithin := inWindow.map a.normalizeSearched
        rw [searched notAscii] at searchedWithin
        exact List.isSublist_iff_sublist.mpr searchedWithin
  · rw [if_neg (by simpa using longer)]
    have all : chosen = name.letters := sub.eq_of_length_le (by omega)
    rw [Atom.see, ← all, seen]
    exact beq_self_eq_true _

end Searching

theorem exists_atomTexts_eq (escaped : Bool) (cs : List Char) :
    ∃ first more, atomTexts escaped cs = first :: more ∧ first <+: cs ∧
      ∀ text ∈ more, ∃ before after, cs = before ++ (text ++ after) ∧ before.getLast? = some ' ' := by
  induction cs generalizing escaped with
  | nil => exact ⟨[], [], rfl, List.prefix_refl _, by simp⟩
  | cons c cs ih =>
    rw [atomTexts]
    split
    · next space =>
      obtain ⟨first, more, read, ⟨rest, starts⟩, others⟩ := ih escaped
      refine ⟨[], _, rfl, List.nil_prefix, fun text member => ?_⟩
      rw [read, List.mem_cons] at member
      rcases member with rfl | later
      · exact ⟨[' '], rest, by rw [space.1, starts, List.singleton_append], rfl⟩
      · obtain ⟨before, after, split, behind⟩ := others text later
        exact ⟨c :: before, after, by rw [split, List.cons_append], by rw [List.getLast?_cons, behind]; rfl⟩
    · obtain ⟨first, more, read, starts, others⟩ := ih (c = '\\')
      rw [read]
      refine ⟨c :: first, more, rfl, List.cons_prefix_cons.mpr ⟨rfl, starts⟩, fun text member => ?_⟩
      obtain ⟨before, after, split, behind⟩ := others text member
      exact ⟨c :: before, after, by rw [split, List.cons_append], by rw [List.getLast?_cons, behind]; rfl⟩

/-- The text of an atom stands at the start of the typed text or behind a space. -/
theorem exists_of_mem_atomTexts {typed text : List Char} (member : text ∈ atomTexts false typed) :
    ∃ before after, typed = before ++ (text ++ after) ∧ (before = [] ∨ before.getLast? = some ' ') := by
  obtain ⟨first, more, read, ⟨rest, starts⟩, others⟩ := exists_atomTexts_eq false typed
  rw [read] at member
  rcases List.mem_cons.mp member with rfl | later
  · exact ⟨[], rest, by rw [starts, List.nil_append], .inl rfl⟩
  · obtain ⟨before, after, split, behind⟩ := others text later
    exact ⟨before, after, split, .inr behind⟩

/-- A name that starts with the typed text has the text of each atom, in whatever case, at its start or behind a
space. -/
theorem exists_part_of_startsWith {name typed text : List Char} (starts : startsWithIgnoringCase name typed = true)
    (member : text ∈ atomTexts false typed) :
    ∃ before part after, name = before ++ (part ++ after) ∧ (before = [] ∨ before.getLast? = some ' ') ∧
      part.map Char.toLower = text.map Char.toLower := by
  obtain ⟨start, stop, rfl, front⟩ := exists_of_mem_atomTexts member
  rw [startsWithIgnoringCase, List.isPrefixOf_iff_prefix] at starts
  obtain ⟨rest, split⟩ := starts
  rw [List.map_append, List.map_append, List.append_assoc, List.append_assoc] at split
  obtain ⟨before, behind, rfl, sameBefore, sameBehind⟩ := List.map_eq_append_iff.mp split.symm
  obtain ⟨part, after, rfl, same, -⟩ := List.map_eq_append_iff.mp sameBehind
  refine ⟨before, part, after, rfl, ?_, same⟩
  rcases front with rfl | space
  · exact .inl (List.map_eq_nil_iff.mp sameBefore)
  · right
    have last : (before.map Char.toLower).getLast? = some ' ' := by rw [sameBefore, List.getLast?_map, space]; rfl
    rw [List.getLast?_map] at last
    obtain ⟨c, isLast, lower⟩ := Option.map_eq_some_iff.mp last
    rw [isLast, eq_of_toLower_eq lower (by decide)]

section Literal

theorem normalize_ascii (a : Atom) {c : Char} (ascii : c.toNat < 128) : a.normalize c = c.toLower := by
  unfold Atom.normalize
  rw [baseLetter_ascii ascii, ite_self, foldCase_ascii ascii]

theorem normalizeSearched_ascii (a : Atom) {c : Char} (ascii : c.toNat < 128) : a.normalizeSearched c = c.toLower := by
  unfold Atom.normalizeSearched
  rw [baseLetter_ascii ascii, foldCase_ascii ascii, foldCapital_ascii ascii, ite_self]

theorem ignoresCase_normalize (a : Atom) : IgnoresCase a.normalize :=
  ignoresCase_of_ascii fun _ => normalize_ascii a

theorem ignoresCase_normalizeSearched (a : Atom) : IgnoresCase a.normalizeSearched :=
  ignoresCase_of_ascii fun _ => normalizeSearched_ascii a

theorem isAsciiText_iff {cs : List Char} : isAsciiText cs = true ↔ ∀ c ∈ cs, c.toNat < 128 := by
  simp [isAsciiText]

theorem unescapeSpaces_sublist (cs : List Char) : (unescapeSpaces cs).Sublist cs := by
  fun_induction unescapeSpaces cs with
  | case1 => exact .slnil
  | case2 cs ih => exact (ih.cons_cons ' ').cons '\\'
  | case3 c cs _ ih => exact ih.cons_cons c

theorem foldEscaped_eq_map {cs : List Char} (noBackslash : '\\' ∉ cs) : foldEscaped false cs = cs.map foldCase := by
  induction cs with
  | nil => rfl
  | cons c cs ih =>
    simp only [List.mem_cons, not_or] at noBackslash
    simp [foldEscaped, ih noBackslash.2, Ne.symm noBackslash.1]

/-- A text whose characters are looked for as they are: one of ASCII without a line end of two characters; or a text
beyond ASCII that holds no backslash and begins with no mark, and whose letters are compared as they are folded. -/
inductive ReadsLiterally (text : List Char) : Prop
  | ascii : isAsciiText text = true → ¬ ['\r', '\n'] <:+: text → ReadsLiterally text
  | wide : isAsciiText (clusterHeads text) = false → '\\' ∉ text → ¬ BeginsWithMark text →
      (∀ c ∈ clusterHeads text,
        (Atom.parse text).normalize c = foldCase c ∧ (Atom.parse text).normalizeSearched c = foldCase c) →
      ReadsLiterally text

theorem isAsciiText_eq_of_same {part text : List Char} (same : part.map Char.toLower = text.map Char.toLower) :
    isAsciiText part = isAsciiText text := by
  have ignores : IgnoresCase fun c => decide (c.toNat < 128) := ignoresCase (by decide)
  have tests := congrArg (List.all · id) (ignores.map_eq same)
  simp only [List.all_map, Function.id_comp] at tests
  exact tests

theorem beginsWithMark_iff_of_same {part text : List Char} (same : part.map Char.toLower = text.map Char.toLower) :
    BeginsWithMark part ↔ BeginsWithMark text := by
  have classes := congrArg List.head? (ignoresCase_clusterClass.map_eq same)
  rw [List.head?_map, List.head?_map] at classes
  have byClass (cs : List Char) : BeginsWithMark cs ↔ ∃ k ∈ cs.head?.map clusterClass, k.isTrailing = true := by
    cases cs <;> simp [BeginsWithMark]
  rw [byClass, byClass, classes]

theorem lineEnd_of_same {part text : List Char} (same : part.map Char.toLower = text.map Char.toLower)
    (inside : ['\r', '\n'] <:+: part) : ['\r', '\n'] <:+: text := by
  obtain ⟨front, back, rfl⟩ := inside
  rw [List.append_assoc, List.map_append] at same
  obtain ⟨before, behind, rfl, -, sameBehind⟩ := List.map_eq_append_iff.mp same.symm
  obtain ⟨c, others, rfl, first, sameOthers⟩ := List.map_eq_cons_iff.mp sameBehind
  obtain ⟨d, after, rfl, second, -⟩ := List.map_eq_cons_iff.mp sameOthers
  obtain rfl := eq_of_toLower_eq first (by decide)
  obtain rfl := eq_of_toLower_eq second (by decide)
  exact ⟨before, after, by simp⟩

/-- The letters of a name, one for each of its bytes if it is ASCII. -/
theorem sublist_letters_ofText {part name : List Char} (inName : part.Sublist name)
    (inHeads : part.Sublist (clusterHeads name)) : part.Sublist (SearchedName.ofText name).letters := by
  have bytes (cs : List Char) : cs.Sublist (cs.flatMap fun c => List.replicate c.utf8Size c) := by
    induction cs with
    | nil => exact .slnil
    | cons c cs ih =>
      obtain ⟨n, size⟩ : ∃ n, c.utf8Size = n + 1 := Nat.exists_eq_add_one.mpr c.utf8Size_pos
      rw [List.flatMap_cons, size, List.replicate_succ, List.cons_append]
      exact (ih.trans (List.sublist_append_right ..)).cons_cons c
  unfold SearchedName.ofText
  simp only
  split
  · exact inName.trans (bytes name)
  · exact inHeads

/-- A plain atom of ASCII is found where the text stands in any case. -/
theorem finds_of_ascii {text part name : List Char} (plain : ¬ HasOperator text) (ascii : isAsciiText text = true)
    (nonempty : (Atom.parse text).needle ≠ []) (same : part.map Char.toLower = text.map Char.toLower)
    (sub : part.Sublist (SearchedName.ofText name).letters) :
    (Atom.parse text).finds (SearchedName.ofText name) = true := by
  obtain ⟨core, dollar, written, -, parsed⟩ := exists_parse_eq plain
  have ascii := isAsciiText_iff.mp ascii
  have coreAscii : isAsciiText core = true :=
    isAsciiText_iff.mpr fun c member => ascii c (written.mem (List.mem_append_left _ member))
  -- the characters to look for, as they are written
  obtain ⟨wanted, isWanted, needle⟩ : ∃ wanted : List Char, wanted.Sublist text ∧
      (Atom.parse text).needle = wanted.map foldCase := by
    refine ⟨unescapeSpaces core ++ if dollar then ['$'] else [],
      ((unescapeSpaces_sublist core).append (.refl _)).trans written, ?_⟩
    rw [parsed, readNeedle, if_pos coreAscii, List.map_append]
    cases dollar <;> rfl
  have wantedAscii : ∀ c ∈ wanted, c.toNat < 128 := fun c member => ascii c (isWanted.mem member)
  obtain ⟨chosen, inPart, seen⟩ := List.sublist_map_iff.mp (same ▸ isWanted.map Char.toLower)
  have looked {f : Char → Char} (folds : ∀ c : Char, c.toNat < 128 → f c = c.toLower) :
      chosen.map f = (Atom.parse text).needle := by
    rw [needle, (ignoresCase_of_ascii folds).map_eq seen.symm]
    exact List.map_congr_left fun c member => by
      rw [folds c (wantedAscii c member), foldCase_ascii (wantedAscii c member)]
  refine finds_of_sublist (by rw [parsed]) nonempty (fun _ => by rw [parsed]; exact coreAscii) (inPart.trans sub) ?_
    fun _ => looked fun _ => normalizeSearched_ascii _
  split
  · exact looked fun _ _ => rfl
  · exact looked fun _ => normalize_ascii _

/-- A plain atom beyond ASCII is found where the heads of its text are. -/
theorem finds_of_wide {text part name : List Char} (plain : ¬ HasOperator text)
    (wide : isAsciiText (clusterHeads text) = false) (noBackslash : '\\' ∉ text)
    (folded : ∀ c ∈ clusterHeads text,
      (Atom.parse text).normalize c = foldCase c ∧ (Atom.parse text).normalizeSearched c = foldCase c)
    (nonempty : (Atom.parse text).needle ≠ []) (same : part.map Char.toLower = text.map Char.toLower)
    (sub : (clusterHeads part).Sublist (clusterHeads name)) :
    (Atom.parse text).finds (SearchedName.ofText name) = true := by
  obtain ⟨core, dollar, -, whole, parsed⟩ := exists_parse_eq plain
  obtain ⟨rfl, rfl⟩ := whole noBackslash
  have heads : (clusterHeads part).map Char.toLower = (clusterHeads core).map Char.toLower :=
    map_toLower_headsAfter [] same
  have beyond {small large : List Char} (inside : small.Sublist large) (isWide : isAsciiText small = false) :
      isAsciiText large = false := by
    rw [Bool.eq_false_iff, ne_eq, isAsciiText_iff] at isWide ⊢
    exact fun all => isWide fun c member => all c (inside.mem member)
  have nameWide := beyond sub ((isAsciiText_eq_of_same heads).trans wide)
  have needle : (Atom.parse core).needle = (clusterHeads core).map foldCase := by
    have none : '\\' ∉ clusterHeads core := fun member => noBackslash ((clusterHeads_sublist core).mem member)
    have notAscii : ¬ isAsciiText core = true := by simp [beyond (clusterHeads_sublist core) wide]
    rw [parsed]
    simp [readNeedle, if_neg notAscii, foldEscaped_eq_map none]
  have name_eq : SearchedName.ofText name = ⟨clusterHeads name, false⟩ := by
    simp [SearchedName.ofText, nameWide]
  have seen {f : Char → Char} (ignores : IgnoresCase f) (plainly : ∀ c ∈ clusterHeads core, f c = foldCase c) :
      (clusterHeads part).map f = (Atom.parse core).needle := by
    rw [needle, ignores.map_eq heads]
    exact List.map_congr_left plainly
  rw [name_eq]
  refine finds_of_sublist (by rw [parsed]) nonempty nofun sub ?_
    fun _ => seen (ignoresCase_normalizeSearched _) fun c member => (folded c member).2
  exact seen (ignoresCase_normalize _) fun c member => (folded c member).1

/-- A name that starts with the typed text has every plain atom of it that is read literally. -/
theorem finds_of_startsWith {name typed text : List Char} (starts : startsWithIgnoringCase name typed = true)
    (member : text ∈ atomTexts false typed) (plain : ¬ HasOperator text) (literal : ReadsLiterally text)
    (nonempty : (Atom.parse text).needle ≠ []) : (Atom.parse text).finds (SearchedName.ofText name) = true := by
  obtain ⟨before, part, after, rfl, front, same⟩ := exists_part_of_startsWith starts member
  have inHeads (begins : ¬ BeginsWithMark text) := clusterHeads_sublist_append front part after
    fun mark => begins ((beginsWithMark_iff_of_same same).mp mark)
  cases literal with
  | ascii ascii noLineEnd =>
    have inName : part.Sublist (before ++ (part ++ after)) :=
      (List.sublist_append_left ..).trans (List.sublist_append_right ..)
    have begins : ¬ BeginsWithMark text := by
      rintro ⟨c, first, mark⟩
      obtain ⟨listed, -⟩ := clusterClass_ascii c (isAsciiText_iff.mp ascii c (List.mem_of_mem_head? first))
      have plainClasses : ∀ k ∈ [ClusterClass.carriageReturn, .lineFeed, .control, .other], k.isTrailing = false := by
        decide
      rw [plainClasses _ listed] at mark
      exact Bool.noConfusion mark
    have whole : clusterHeads part = part :=
      clusterHeads_ascii (isAsciiText_iff.mp ((isAsciiText_eq_of_same same).trans ascii))
        fun inside => noLineEnd (lineEnd_of_same same inside)
    have partHeads := inHeads begins
    rw [whole] at partHeads
    exact finds_of_ascii plain ascii nonempty same (sublist_letters_ofText inName partHeads)
  | wide wide noBackslash begins folded =>
    exact finds_of_wide plain wide noBackslash folded nonempty same (inHeads begins)

end Literal

theorem fits_iff {typed name : String} :
    fits typed name = true ↔ ∀ text ∈ atomTexts false typed.toList, (Atom.parse text).needle ≠ [] →
      (Atom.parse text).holds (.ofText name.toList) = true := by
  simp [fits, parsePattern, Decidable.or_iff_not_imp_left]

/-- Names that start with the typed text, ASCII letters in any case. If the parts of the text between spaces are read
literally where they have no operator, such a name is kept if and only if every part that has one, and looks for
something, holds of it as the pattern that it is. So all of them are kept when no part begins with `!`, `^` or `'` or
ends in a dollar sign. -/
theorem filterByLookAhead_keeps_typed (typed : String) (items : List Item)
    (literal : ∀ text ∈ atomTexts false typed.toList, ¬ HasOperator text → ReadsLiterally text) :
    (∀ item ∈ items, startsWithIgnoringCase item.displayText.toList typed.toList = true →
      (item ∈ filterByLookAhead typed items ↔
        ∀ text ∈ atomTexts false typed.toList, HasOperator text → (Atom.parse text).needle ≠ [] →
          (Atom.parse text).holds (.ofText item.displayText.toList) = true)) ∧
      ((∀ text ∈ atomTexts false typed.toList, ¬ HasOperator text) →
        (items.filter fun item => startsWithIgnoringCase item.displayText.toList typed.toList).Sublist
          (filterByLookAhead typed items)) := by
  have kept (item : Item) (starts : startsWithIgnoringCase item.displayText.toList typed.toList = true) :
      fits typed item.displayText = true ↔
        ∀ text ∈ atomTexts false typed.toList, HasOperator text → (Atom.parse text).needle ≠ [] →
          (Atom.parse text).holds (.ofText item.displayText.toList) = true := by
    rw [fits_iff]
    refine forall₂_congr fun text member => ⟨fun holds _ => holds, fun holds nonempty => ?_⟩
    by_cases operator : HasOperator text
    · exact holds operator nonempty
    · have positive := ((isPlain_parse_iff text).mpr operator).1
      rw [Atom.holds, positive, finds_of_startsWith starts member operator (literal text member operator) nonempty]
      rfl
  refine ⟨fun item member starts => ?_, fun none => ?_⟩
  · rw [filterByLookAhead, List.mem_filter, kept item starts, and_iff_right member]
  · have all : (items.filter fun item => startsWithIgnoringCase item.displayText.toList typed.toList) =
        (filterByLookAhead typed items).filter fun item =>
          startsWithIgnoringCase item.displayText.toList typed.toList := by
      rw [filterByLookAhead, List.filter_filter]
      refine List.filter_congr fun item _ => ?_
      cases starts : startsWithIgnoringCase item.displayText.toList typed.toList with
      | false => rfl
      | true => rw [(kept item starts).mpr fun text member operator => absurd operator (none text member)]; rfl
    rw [all]
    exact List.filter_sublist

/-- A name with an umlaut and a space, typed in part and in the other case; an exclamation mark behind a letter is no
operator. -/
theorem filterByLookAhead_keeps_typed_spaced :
    let item := Item.named "grö X!y" .path "embedded_option"
    (∀ text ∈ atomTexts false "Grö x!".toList, ¬ HasOperator text ∧ ReadsLiterally text) ∧
      startsWithIgnoringCase item.displayText.toList "Grö x!".toList = true ∧
      item ∈ filterByLookAhead "Grö x!" [item] := by
  intro item
  have atoms : atomTexts false "Grö x!".toList = ["Grö".toList, "x!".toList] := by decide
  have heads : clusterHeads "Grö".toList = ['G', 'r', 'ö'] := by decide +kernel
  have wide : ReadsLiterally "Grö".toList := by
    refine .wide (by decide +kernel) (by decide) (by decide +kernel) ?_
    simp only [heads, List.forall_mem_cons, List.not_mem_nil, false_imp_iff, implies_true, and_true]
    decide +kernel
  have reads : ∀ text ∈ atomTexts false "Grö x!".toList, ¬ HasOperator text ∧ ReadsLiterally text := by
    rw [atoms]
    simp only [List.forall_mem_cons, List.not_mem_nil, false_imp_iff, implies_true, and_true]
    exact ⟨⟨by decide, wide⟩, by decide, .ascii (by decide) (by decide)⟩
  have starts : startsWithIgnoringCase item.displayText.toList "Grö x!".toList = true := by decide
  obtain ⟨keeps, -⟩ := filterByLookAhead_keeps_typed "Grö x!" [item] fun text member _ => (reads text member).2
  refine ⟨reads, starts, (keeps item List.mem_cons_self starts).mpr fun text member operator => ?_⟩
  exact absurd operator (reads text member).1

/-- A typed operator drops a name that starts with it: a negation, one for the start and one for the end. -/
theorem operator_drops_typed :
    (startsWithIgnoringCase "!ab".toList "!a".toList = true ∧
      filterByLookAhead "!a" [Item.named "!ab" .path "embedded_option"] = []) ∧
    (startsWithIgnoringCase "^ab".toList "^a".toList = true ∧
      filterByLookAhead "^a" [Item.named "^ab" .path "embedded_option"] = []) ∧
    startsWithIgnoringCase "a$b".toList "a$".toList = true ∧
      filterByLookAhead "a$" [Item.named "a$b" .path "embedded_option"] = [] := by
  decide +kernel

end Typeahead.Lookup
