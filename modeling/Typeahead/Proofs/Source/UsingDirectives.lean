import Typeahead.Proofs.Catalog.TypeTerm
import Typeahead.Proofs.Source.TypeKeywords
import Typeahead.Source.Directive
import Typeahead.Source.Region

namespace Typeahead.Source

open Text

variable {text body : List Char} {p q : Place} {d : Using} {start : Nat} {ps : List Place}

/-- Where the search goes on behind a `using`; nowhere when no semicolon is left. -/
def behindUsing? (p : Place) : Option Nat :=
  (breakFirst (· == ';') (p.rest.drop 5)).map fun (text, _, _) =>
    if isStatementBody (trim text) then p.offset + 5 else p.offset + 5 + utf8Length text + 1

/-- The directive that begins with the `using` at a place. -/
def usingAt? (p : Place) : Option Using :=
  match breakFirst (· == ';') (p.rest.drop 5) with
  | none => none
  | some (text, _, _) => if isStatementBody (trim text) then none else Using.ofBody? (trim text)

/-- The places among the given ones that the search from `start` on comes to. -/
def reachedFrom (start : Nat) : List Place → List Place
  | [] => []
  | p :: ps =>
    if p.offset < start then reachedFrom start ps
    else
      match behindUsing? p with
      | none => []
      | some next => p :: reachedFrom next ps

/-- The directives of a text with the places they begin at. -/
def usingsAt (text : List Char) : List (Place × Using) :=
  (reachedFrom 0 (wordPlaces "using".toList text)).filterMap fun p => (usingAt? p).map (p, ·)

theorem usingsFrom_eq (start : Nat) (ps : List Place) :
    usingsFrom start ps = (reachedFrom start ps).filterMap usingAt? := by
  induction ps generalizing start with
  | nil => rfl
  | cons p ps ih =>
    rw [usingsFrom, reachedFrom]
    by_cases passed : p.offset < start
    · rw [if_pos passed, if_pos passed, ih]
    rw [if_neg passed, if_neg passed]
    cases ends : breakFirst (· == ';') (p.rest.drop 5) with
    | none => simp [behindUsing?, ends]
    | some parts =>
      obtain ⟨text, c, later⟩ := parts
      simp only [behindUsing?, ends, Option.map_some, List.filterMap_cons, usingAt?]
      by_cases statement : isStatementBody (trim text) = true
      · simp only [statement, if_true, ih]
      · simp only [statement, Bool.false_eq_true, if_false]
        cases Using.ofBody? (trim text) with
        | none => simp only [ih]
        | some directive => simp only [ih]

theorem usings_eq_map (text : List Char) : usings text = (usingsAt text).map (·.2) := by
  rw [usings, usingsFrom_eq, usingsAt, List.map_filterMap]
  congr 1
  funext p
  cases usingAt? p <;> rfl

theorem reachedFrom_sublist (start : Nat) (ps : List Place) : (reachedFrom start ps).Sublist ps := by
  induction ps generalizing start with
  | nil => exact .slnil
  | cons p ps ih =>
    rw [reachedFrom]
    split
    · exact (ih start).cons p
    · cases behindUsing? p with
      | none => exact List.nil_sublist _
      | some next => exact (ih next).cons_cons p

theorem usingsAt_sublist (text : List Char) :
    ((usingsAt text).map (·.1)).Sublist (wordPlaces "using".toList text) := by
  have found : (usingsAt text).map (·.1) =
      (reachedFrom 0 (wordPlaces "using".toList text)).filter fun p => (usingAt? p).isSome := by
    rw [usingsAt, List.map_filterMap, ← List.filterMap_eq_filter]
    congr 1
    funext p
    cases found : usingAt? p <;> simp [Option.guard, found]
  rw [found]
  exact List.filter_sublist.trans (reachedFrom_sublist 0 _)

theorem mem_usingsAt :
    (p, d) ∈ usingsAt text ↔ p ∈ reachedFrom 0 (wordPlaces "using".toList text) ∧ usingAt? p = some d := by
  simp only [usingsAt, List.mem_filterMap, Option.map_eq_some_iff, Prod.mk.injEq]
  constructor
  · rintro ⟨q, reached, directive, found, rfl, rfl⟩
    exact ⟨reached, found⟩
  · rintro ⟨reached, found⟩
    exact ⟨p, reached, d, found, rfl, rfl⟩

/-- The search goes on no later than at the offset when it has come to the `using` here. -/
def IsDoneBy (offset : Nat) (p : Place) : Prop := ∃ next ∈ behindUsing? p, next ≤ offset

/-- A `using` that the search passes over does not reach beyond the one that makes it do so. -/
def AreDoneTogether (p q : Place) : Prop := ∀ next ∈ behindUsing? p, q.offset < next → IsDoneBy next q

/-- The search comes to a place exactly when it is done there with everything that stands in front of it. The second
hypothesis is the invariant of the search: what it has passed over is done with. -/
theorem mem_reachedFrom_iff (sorted : ps.Pairwise fun p q => p.offset < q.offset)
    (passed : ∀ q ∈ ps, q.offset < start → IsDoneBy start q) (nested : ps.Pairwise AreDoneTogether) :
    p ∈ reachedFrom start ps ↔ p ∈ ps ∧ start ≤ p.offset ∧ (behindUsing? p).isSome = true ∧
      ∀ q ∈ ps, q.offset < p.offset → IsDoneBy p.offset q := by
  induction ps generalizing start with
  | nil => simp [reachedFrom]
  | cons first ps ih =>
    obtain ⟨before, sorted⟩ := List.pairwise_cons.mp sorted
    obtain ⟨together, nested⟩ := List.pairwise_cons.mp nested
    rw [reachedFrom]
    by_cases skipped : first.offset < start
    · rw [if_pos skipped, ih sorted (fun q member => passed q (List.mem_cons_of_mem _ member)) nested]
      constructor
      · rintro ⟨member, behind, ends, done⟩
        refine ⟨List.mem_cons_of_mem _ member, behind, ends, fun q inList earlier => ?_⟩
        rcases List.mem_cons.mp inList with rfl | inList
        · obtain ⟨next, goesOn, le⟩ := passed q List.mem_cons_self skipped
          exact ⟨next, goesOn, le.trans behind⟩
        · exact done q inList earlier
      · rintro ⟨member, behind, ends, done⟩
        have other : p ≠ first := by
          rintro rfl
          omega
        exact ⟨List.mem_of_ne_of_mem other member, behind, ends,
          fun q inList => done q (List.mem_cons_of_mem _ inList)⟩
    rw [if_neg skipped]
    cases goesOn : behindUsing? first with
    | none =>
      simp only [List.not_mem_nil, false_iff]
      rintro ⟨member, -, ends, done⟩
      rcases List.mem_cons.mp member with rfl | member
      · simp [goesOn] at ends
      · obtain ⟨next, found, -⟩ := done first List.mem_cons_self (before p member)
        simp [goesOn] at found
    | some next =>
      have passedNext : ∀ q ∈ ps, q.offset < next → IsDoneBy next q := fun q member => together q member next goesOn
      rw [List.mem_cons, ih sorted passedNext nested]
      constructor
      · rintro (rfl | ⟨member, behind, ends, done⟩)
        · refine ⟨List.mem_cons_self, by omega, by simp [goesOn], fun q inList earlier => ?_⟩
          rcases List.mem_cons.mp inList with rfl | inList
          · omega
          · have := before q inList
            omega
        · have := before p member
          refine ⟨List.mem_cons_of_mem _ member, by omega, ends, fun q inList earlier => ?_⟩
          rcases List.mem_cons.mp inList with rfl | inList
          · exact ⟨next, goesOn, behind⟩
          · exact done q inList earlier
      · rintro ⟨member, -, ends, done⟩
        rcases List.mem_cons.mp member with rfl | member
        · exact .inl rfl
        · obtain ⟨found, goesOn', le⟩ := done first List.mem_cons_self (before p member)
          obtain rfl : next = found := by simpa [goesOn] using goesOn'
          exact .inr ⟨member, le, ends, fun q inList => done q (List.mem_cons_of_mem _ inList)⟩

theorem utf8Length_using : utf8Length "using".toList = 5 := rfl

theorem drop_using {rest : List Char} (split : p.rest = "using".toList ++ rest) : p.rest.drop 5 = rest := by
  rw [split]
  rfl

/-- Two occurrences of `using` do not overlap. -/
theorem exists_between_usings (first : p ∈ wordPlaces "using".toList text)
    (second : q ∈ wordPlaces "using".toList text) (before : p.offset < q.offset) :
    ∃ between, p.rest = "using".toList ++ (between ++ q.rest) ∧ q.offset = p.offset + 5 + utf8Length between := by
  obtain ⟨inText, rest, begins⟩ := exists_rest_of_mem_wordPlaces first
  obtain ⟨alsoInText, more, alsoBegins⟩ := exists_rest_of_mem_wordPlaces second
  obtain ⟨mid, split, distance⟩ := exists_between inText alsoInText before.le
  rcases List.append_eq_append_iff.mp (begins.symm.trans split) with ⟨between, rfl, -⟩ | ⟨overlap, parts, rest⟩
  · refine ⟨between, by rw [split, List.append_assoc], ?_⟩
    rw [distance, utf8Length_append, utf8Length_using, Nat.add_assoc]
  · cases overlap with
    | nil =>
      rw [List.append_nil] at parts
      exact ⟨[], by rw [split, parts, List.nil_append], by rw [distance, ← parts, utf8Length_nil, utf8Length_using]⟩
    | cons c overlap =>
      -- the word has one `u` only, so that it can begin again at its own start alone
      rw [alsoBegins] at rest
      obtain ⟨rfl, -⟩ := List.cons.inj rest
      cases mid with
      | nil =>
        rw [utf8Length_nil] at distance
        omega
      | cons d mid =>
        have again : 'u' ∈ "using".toList.tail := by
          rw [parts]
          exact List.mem_append_right mid List.mem_cons_self
        exact absurd again (by decide)

/-- The text from a `using` to the next semicolon. -/
def HasUsingText (p : Place) (inner : List Char) : Prop :=
  ';' ∉ inner ∧ ∃ later, p.rest = "using".toList ++ (inner ++ ';' :: later)

theorem HasUsingText.breakFirst {inner : List Char} (has : HasUsingText p inner) :
    ∃ later, breakFirst (· == ';') (p.rest.drop 5) = some (inner, ';', later) := by
  obtain ⟨none, later, split⟩ := has
  refine ⟨later, ?_⟩
  rw [drop_using split]
  exact breakFirst_append (fun _ member => beq_false_of_ne fun same => none (same ▸ member)) rfl

theorem HasUsingText.behindUsing? {inner : List Char} (has : HasUsingText p inner) : behindUsing? p = some
    (if isStatementBody (trim inner) then p.offset + 5 else p.offset + 5 + utf8Length inner + 1) := by
  obtain ⟨later, ends⟩ := has.breakFirst
  rw [Source.behindUsing?, ends, Option.map_some]

theorem exists_hasUsingText {rest : List Char} (split : p.rest = "using".toList ++ rest) (member : ';' ∈ rest) :
    ∃ inner, HasUsingText p inner := by
  obtain ⟨inner, later, rfl, none⟩ := List.eq_append_cons_of_mem member
  exact ⟨inner, none, later, split⟩

/-- Without a semicolon in between the text of a `using` goes on through the next one. -/
theorem HasUsingText.before {inner between : List Char} (has : HasUsingText q inner)
    (split : p.rest = "using".toList ++ (between ++ q.rest)) (apart : ';' ∉ between) :
    HasUsingText p (between ++ ("using".toList ++ inner)) := by
  obtain ⟨none, later, begins⟩ := has
  have letters : ';' ∉ "using".toList := by decide
  have noSemicolon : ';' ∉ between ++ ("using".toList ++ inner) := by
    simp only [List.mem_append, not_or]
    exact ⟨apart, letters, none⟩
  refine ⟨noSemicolon, later, ?_⟩
  rw [split, begins]
  simp only [List.append_assoc]

theorem semicolon_mem_of_behindUsing? {rest : List Char} (split : p.rest = "using".toList ++ rest)
    (goesOn : (behindUsing? p).isSome = true) : ';' ∈ rest := by
  obtain ⟨next, found⟩ := Option.isSome_iff_exists.mp goesOn
  obtain ⟨⟨earlier, c, later⟩, ends, -⟩ := Option.map_eq_some_iff.mp found
  obtain ⟨whole, isSemicolon, -⟩ := eq_append_of_breakFirst ends
  obtain rfl : c = ';' := by simpa using isSemicolon
  rw [← drop_using split, whole]
  exact List.mem_append_right _ List.mem_cons_self

/-- A semicolon in front of a place ends everything that begins before it. -/
theorem isDoneBy_of_semicolon {between rest : List Char} (split : p.rest = "using".toList ++ (between ++ rest))
    (member : ';' ∈ between) : IsDoneBy (p.offset + 5 + utf8Length between) p := by
  obtain ⟨inner, later, rfl, none⟩ := List.eq_append_cons_of_mem member
  rw [List.append_assoc, List.cons_append] at split
  have has : HasUsingText p inner := ⟨none, _, split⟩
  have semicolon : ';'.utf8Size = 1 := rfl
  refine ⟨_, has.behindUsing?, ?_⟩
  rw [utf8Length_append, utf8Length_cons, semicolon]
  split_ifs <;> omega

/-- In front of the semicolon the search is done with a `using` only when its text belongs to a statement. -/
theorem HasUsingText.isDoneBy_iff {inner : List Char} {offset : Nat} (has : HasUsingText p inner)
    (after : p.offset + 5 ≤ offset) (before : offset ≤ p.offset + 5 + utf8Length inner) :
    IsDoneBy offset p ↔ isStatementBody (trim inner) = true := by
  constructor
  · rintro ⟨next, goesOn, le⟩
    by_contra directive
    rw [has.behindUsing?, if_neg directive, Option.mem_some_iff] at goesOn
    omega
  · intro statement
    exact ⟨_, has.behindUsing?, by rw [if_pos statement]; exact after⟩

theorem areDoneTogether_of_usings (first : p ∈ wordPlaces "using".toList text)
    (second : q ∈ wordPlaces "using".toList text) (before : p.offset < q.offset) : AreDoneTogether p q := by
  intro next goesOn reaches
  obtain ⟨between, split, distance⟩ := exists_between_usings first second before
  obtain ⟨-, rest, begins⟩ := exists_rest_of_mem_wordPlaces second
  have apart : ';' ∉ between := fun member => by
    obtain ⟨found, also, le⟩ := isDoneBy_of_semicolon split member
    obtain rfl := Option.mem_unique goesOn also
    omega
  have ends : ';' ∈ rest := by
    have member := semicolon_mem_of_behindUsing? split (Option.isSome_of_mem goesOn)
    rw [begins, List.mem_append, List.mem_append] at member
    exact (member.resolve_left apart).resolve_left (by decide)
  obtain ⟨inner, has⟩ := exists_hasUsingText begins ends
  rw [(has.before split apart).behindUsing?, Option.mem_some_iff, utf8Length_append, utf8Length_append,
    utf8Length_using] at goesOn
  refine ⟨_, has.behindUsing?, ?_⟩
  split_ifs at goesOn ⊢ <;> omega

/-- The search comes to a `using` exactly when every earlier one without a semicolon in between belongs to a
statement. -/
theorem HasUsingText.mem_reachedFrom_iff {inner : List Char} (has : HasUsingText p inner)
    (member : p ∈ wordPlaces "using".toList text) :
    p ∈ reachedFrom 0 (wordPlaces "using".toList text) ↔
      ∀ q ∈ wordPlaces "using".toList text, ∀ between, q.rest = "using".toList ++ (between ++ p.rest) →
        ';' ∉ between → isStatementBody (trim (between ++ ("using".toList ++ inner))) = true := by
  have sorted : (wordPlaces "using".toList text).Pairwise fun p q => p.offset < q.offset :=
    (placesFrom_sorted 0 [] text).filter _
  have nested : (wordPlaces "using".toList text).Pairwise AreDoneTogether :=
    sorted.imp_of_mem areDoneTogether_of_usings
  have ends : (Source.behindUsing? p).isSome = true := by rw [has.behindUsing?, Option.isSome_some]
  rw [Source.mem_reachedFrom_iff sorted (fun q _ early => absurd early (Nat.not_lt_zero _)) nested]
  simp only [member, Nat.zero_le, ends, true_and]
  have done (q : Place) (between : List Char) (split : q.rest = "using".toList ++ (between ++ p.rest))
      (distance : p.offset = q.offset + 5 + utf8Length between) (apart : ';' ∉ between) :
      IsDoneBy p.offset q ↔ isStatementBody (trim (between ++ ("using".toList ++ inner))) = true := by
    refine (has.before split apart).isDoneBy_iff (by omega) ?_
    rw [utf8Length_append]
    omega
  constructor
  · intro passed q inText between split apart
    have distance : p.offset = q.offset + 5 + utf8Length between := by
      have whole := offset_add_rest (List.mem_of_mem_filter member)
      have also := offset_add_rest (List.mem_of_mem_filter inText)
      rw [split, utf8Length_append, utf8Length_append, utf8Length_using] at also
      omega
    exact (done q between split distance apart).mp (passed q inText (by omega))
  · intro statements q inText before
    obtain ⟨between, split, distance⟩ := exists_between_usings inText member before
    by_cases semicolon : ';' ∈ between
    · rw [distance]
      exact isDoneBy_of_semicolon split semicolon
    · exact (done q between split distance semicolon).mpr (statements q inText between split semicolon)

/-- A name of the given characters, without blanks. -/
structure IsNameOf (isPart : Char → Bool) (cs : List Char) : Prop where
  nonempty : cs ≠ []
  letters : ∀ c ∈ cs, isPart c = true ∧ isBlank c = false

/-- The three forms of a directive, between its first word and its semicolon. -/
inductive Using.IsSpelled : Using → List Char → Prop where
  | wholeNamespace {name : List Char} (named : IsNameOf isDottedNameChar name) :
    IsSpelled (.wholeNamespace (String.ofList name)) name
  | staticsOf {gap name : List Char} (apart : gap ≠ []) (blank : ∀ c ∈ gap, isBlank c = true)
      (named : IsNameOf isDottedNameChar name) :
    IsSpelled (.staticsOf (String.ofList name)) ("static".toList ++ (gap ++ name))
  | aliasOf {name before behind target : List Char} (named : IsNameOf isIdentifierChar name)
      (notKeyword : name ≠ "static".toList) (blankBefore : ∀ c ∈ before, isBlank c = true)
      (blankBehind : ∀ c ∈ behind, isBlank c = true) (targeted : IsNameOf isDottedNameChar target) :
    IsSpelled (.aliasOf (String.ofList name) (String.ofList target)) (name ++ (before ++ '=' :: (behind ++ target)))

/-- A complete directive: the word, blanks, one of the three forms, and a semicolon. -/
structure IsComplete (text : List Char) (p : Place) (d : Using) (body : List Char) : Prop where
  isWord : p ∈ wordPlaces "using".toList text
  spelled : d.IsSpelled body
  reads : ∃ gap behind later, (∀ c ∈ gap, isBlank c = true) ∧ (∀ c ∈ behind, isBlank c = true) ∧
    p.rest = "using".toList ++ (gap ++ (body ++ behind) ++ ';' :: later)

/-- A bracket that no directive has, or the word `var` in front of a space. -/
def IsStatementText (cs : List Char) : Prop :=
  (∃ c ∈ cs, c = '(' ∨ c = '{' ∨ c = '}') ∨ "var ".toList <+: trimStart cs

theorem IsNameOf.isTrimmed {isPart : Char → Bool} {cs : List Char} (named : IsNameOf isPart cs) : IsTrimmed cs where
  nonempty := named.nonempty
  first c first := (named.letters c (List.mem_of_mem_head? first)).2
  last c last := (named.letters c (List.mem_of_mem_getLast? last)).2

/-- The marks around statements. -/
def statementMarks : List Char := [';', '(', '{', '}']

theorem unmarked_of_all {isPart : Char → Bool} (none : ('=' :: statementMarks).all (fun d => !isPart d) = true)
    {cs : List Char} (parts : ∀ c ∈ cs, isPart c = true) : ∀ c ∈ cs, c ∉ statementMarks ∧ c ≠ '=' := by
  intro c member
  have other : c ∉ '=' :: statementMarks := fun mark => by
    have absent := List.all_eq_true.mp none c mark
    simp [parts c member] at absent
  simp only [List.mem_cons, not_or] at other
  exact ⟨other.2, other.1⟩

theorem unmarked_of_blank {cs : List Char} (blank : ∀ c ∈ cs, isBlank c = true) :
    ∀ c ∈ cs, c ∉ statementMarks ∧ c ≠ '=' := unmarked_of_all (by decide) blank

theorem unmarked_of_letters {cs : List Char} (letters : cs.all isDottedNameChar = true) :
    ∀ c ∈ cs, c ∉ statementMarks ∧ c ≠ '=' := unmarked_of_all (by decide) (List.all_eq_true.mp letters)

theorem IsNameOf.of_all {isPart : Char → Bool} {cs : List Char} (nonempty : cs ≠ [])
    (letters : (cs.all fun c => isPart c && !isBlank c) = true) : IsNameOf isPart cs :=
  ⟨nonempty, fun c member => by simpa using List.all_eq_true.mp letters c member⟩

theorem IsNameOf.all {isPart : Char → Bool} {cs : List Char} (named : IsNameOf isPart cs) : cs.all isPart = true :=
  List.all_eq_true.mpr fun c member => (named.letters c member).1

theorem IsNameOf.unmarked {cs : List Char} (named : IsNameOf isDottedNameChar cs) :
    ∀ c ∈ cs, c ∉ statementMarks ∧ c ≠ '=' := unmarked_of_letters named.all

theorem IsNameOf.dotted {cs : List Char} (named : IsNameOf isIdentifierChar cs) : IsNameOf isDottedNameChar cs where
  nonempty := named.nonempty
  letters c member := ⟨by simp [isDottedNameChar, (named.letters c member).1], (named.letters c member).2⟩

theorem IsNameOf.isDottedName {cs : List Char} (named : IsNameOf isDottedNameChar cs) : isDottedName cs = true := by
  have nonempty : cs.isEmpty = false := by simpa using named.nonempty
  rw [Source.isDottedName, nonempty, named.all]
  rfl

theorem Using.IsSpelled.unmarked (spelled : d.IsSpelled body) : ∀ c ∈ body, c ∉ statementMarks := by
  cases spelled with
  | wholeNamespace named => exact fun c member => (named.unmarked c member).1
  | staticsOf _ blank named =>
    simp only [List.forall_mem_append]
    exact ⟨fun c member => (unmarked_of_letters (by decide) c member).1,
      fun c member => (unmarked_of_blank blank c member).1, fun c member => (named.unmarked c member).1⟩
  | aliasOf named _ blankBefore blankBehind targeted =>
    have sign : '=' ∉ statementMarks := by decide
    simp only [List.forall_mem_append, List.forall_mem_cons]
    exact ⟨fun c member => (named.dotted.unmarked c member).1,
      fun c member => (unmarked_of_blank blankBefore c member).1, sign,
      fun c member => (unmarked_of_blank blankBehind c member).1, fun c member => (targeted.unmarked c member).1⟩

/-- What begins a text begins the part of it in front of a character that it does not have. -/
theorem prefix_of_prefix_append {word front rest : List Char} {c : Char} (begins : word <+: front ++ c :: rest)
    (absent : c ∉ word) : word <+: front := by
  obtain ⟨tail, split⟩ := begins
  rcases List.append_eq_append_iff.mp split with ⟨more, rfl, -⟩ | ⟨more, rfl, rest⟩
  · exact List.prefix_append _ _
  · cases more with
    | nil => simp
    | cons d more =>
      obtain ⟨rfl, -⟩ := List.cons.inj rest
      exact absurd (List.mem_append_right _ List.mem_cons_self) absent

theorem Using.IsSpelled.isTrimmed (spelled : d.IsSpelled body) : IsTrimmed body := by
  cases spelled with
  | wholeNamespace named => exact named.isTrimmed
  | @staticsOf gap name _ _ named =>
    rw [← List.append_assoc]
    refine named.isTrimmed.append_left fun c first => ?_
    obtain rfl : 's' = c := Option.some.inj first
    rfl
  | @aliasOf name before behind target named _ _ _ targeted =>
    refine named.isTrimmed.append fun c last => targeted.isTrimmed.last c ?_
    have split : before ++ '=' :: (behind ++ target) = (before ++ '=' :: behind) ++ target := by simp
    rwa [split, List.getLast?_append_of_ne_nil _ targeted.nonempty] at last

/-- A body is read as a whole unless it begins with the word `static` in front of a blank. -/
theorem ofBody?_eq_plain (plain : ∀ rest, body = "static".toList ++ rest → rest.head?.any isBlank = false) :
    Using.ofBody? body = Using.ofBody?.plain body := by
  rw [Using.ofBody?]
  split
  · next rest found => rw [plain rest (eq_append_of_dropStart? found), if_neg Bool.false_ne_true]
  · rfl

/-- A name that begins with a word and is another one goes on with a letter behind it. -/
theorem IsNameOf.head_behind {isPart : Char → Bool} {word name tail rest : List Char} {c : Char}
    (named : IsNameOf isPart name) (other : name ≠ word) (same : name ++ c :: tail = word ++ rest) (absent : c ∉ word) :
    rest.head?.any isBlank = false := by
  obtain ⟨ending, rfl⟩ := prefix_of_prefix_append ⟨rest, same.symm⟩ absent
  rw [List.append_assoc] at same
  rw [← List.append_cancel_left same]
  cases ending with
  | nil => exact absurd (List.append_nil _) other
  | cons e ending => exact (named.letters e (by simp)).2

theorem Using.IsSpelled.ofBody?_eq (spelled : d.IsSpelled body) : Using.ofBody? body = some d := by
  have nothing : ∀ c ∈ ([] : List Char), isBlank c = true := by simp
  cases spelled with
  | wholeNamespace named =>
    rw [ofBody?_eq_plain, ofBody?.plain, breakFirst_eq_none fun c member => by simp [(named.unmarked c member).2]]
    · simp only [named.isDottedName, if_true]
    · rintro rest rfl
      cases rest with
      | nil => rfl
      | cons c rest => exact (named.letters c (by simp)).2
  | @staticsOf gap name apart blank named =>
    have trimmed : trim (gap ++ name) = name := by
      have whole := trim_append blank named.isTrimmed nothing
      rwa [List.append_nil] at whole
    have begins : (gap ++ name).head?.any isBlank = true := by
      obtain ⟨c, gap, rfl⟩ := List.exists_cons_of_ne_nil apart
      exact blank c List.mem_cons_self
    have found : dropStart? "static".toList ("static".toList ++ (gap ++ name)) = some (gap ++ name) := by
      rw [dropStart?, if_pos (by simp), List.drop_left]
    rw [Using.ofBody?, found]
    simp only [begins, trimmed, named.isDottedName, if_true]
  | @aliasOf name before behind target named notKeyword blankBefore blankBehind targeted =>
    rw [ofBody?_eq_plain, ofBody?.plain]
    · have first : breakFirst (· == '=') ((name ++ before) ++ '=' :: (behind ++ target)) =
          some (name ++ before, '=', behind ++ target) := by
        refine breakFirst_append (fun c member => beq_false_of_ne ?_) rfl
        rcases List.mem_append.mp member with member | member
        · exact (named.dotted.unmarked c member).2
        · exact (unmarked_of_blank blankBefore c member).2
      have trimmedName : trim (name ++ before) = name := trim_append nothing named.isTrimmed blankBefore
      have trimmedTarget : trim (behind ++ target) = target := by
        have whole := trim_append blankBehind targeted.isTrimmed nothing
        rwa [List.append_nil] at whole
      rw [List.append_assoc] at first
      rw [first]
      simp [trimmedName, trimmedTarget, named.all, named.nonempty, targeted.nonempty]
    · intro rest split
      cases before with
      | nil => exact named.head_behind notKeyword split (by decide)
      | cons c before =>
        refine named.head_behind notKeyword split fun member => ?_
        have letters : "static".toList.all (fun d => !isBlank d) = true := by decide
        have dark := List.all_eq_true.mp letters c member
        simp [blankBefore c List.mem_cons_self] at dark

theorem isStatementBody_iff {cs : List Char} :
    isStatementBody (trimStart cs) = true ↔ IsStatementText cs := by
  have bracket : (trimStart cs).any (fun c => c == '(' || c == '{' || c == '}') = true ↔
      ∃ c ∈ cs, c = '(' ∨ c = '{' ∨ c = '}' := by
    simp only [List.any_eq_true, Bool.or_eq_true, beq_iff_eq, or_assoc]
    refine exists_congr fun c => and_congr_left fun mark => mem_trimStart_iff ?_
    rcases mark with rfl | rfl | rfl <;> rfl
  rw [isStatementBody, Bool.or_eq_true, bracket, List.isPrefixOf_iff_prefix, IsStatementText]

theorem trim_append_core {front core behind : List Char} (trimmed : IsTrimmed core)
    (blank : ∀ c ∈ behind, isBlank c = true) : trim (front ++ (core ++ behind)) = trimStart front ++ core := by
  have blanks : ∀ c ∈ front.takeWhile isBlank, isBlank c = true := List.all_eq_true.mp List.all_takeWhile
  have split : front.takeWhile isBlank ++ trimStart front = front := List.takeWhile_append_dropWhile
  have whole : IsTrimmed (trimStart front ++ core) := by
    refine trimmed.append_left fun c first => ?_
    have stops := List.head?_dropWhile_not isBlank front
    rw [trimStart] at first
    rw [first] at stops
    simpa using stops
  rw [← trim_append blanks whole blank, List.append_assoc, ← List.append_assoc _ (trimStart front), split]

/-- A text without brackets behind another one does not make a statement of it. -/
theorem isStatementBody_append {front core : List Char} {c : Char} (unmarked : ∀ d ∈ c :: core, d ∉ statementMarks)
    (other : c ∉ "var ".toList) : isStatementBody (front ++ c :: core) = isStatementBody front := by
  have brackets : (c :: core).any (fun d => d == '(' || d == '{' || d == '}') = false := by
    refine List.any_eq_false.mpr fun d member bracket => unmarked d member ?_
    simp only [Bool.or_eq_true, beq_iff_eq] at bracket
    rcases bracket with (rfl | rfl) | rfl <;> decide
  have word : "var ".toList.isPrefixOf (front ++ c :: core) = "var ".toList.isPrefixOf front := by
    rw [Bool.eq_iff_iff, List.isPrefixOf_iff_prefix, List.isPrefixOf_iff_prefix]
    exact ⟨fun begins => prefix_of_prefix_append begins other, fun begins => begins.trans (List.prefix_append _ _)⟩
  rw [isStatementBody, List.any_append, brackets, Bool.or_false, word, isStatementBody]

/-- The text from a `using` up to a complete directive belongs to a statement when the part in front of the directive
does. -/
theorem Using.IsSpelled.isStatementBody_before (spelled : d.IsSpelled body) {between gap behind : List Char}
    (blank : ∀ c ∈ gap, isBlank c = true) (blankBehind : ∀ c ∈ behind, isBlank c = true) :
    isStatementBody (trim (between ++ ("using".toList ++ (gap ++ (body ++ behind))))) = true ↔
      IsStatementText between := by
  have trimmed : IsTrimmed ("using".toList ++ (gap ++ body)) := by
    rw [← List.append_assoc]
    refine spelled.isTrimmed.append_left fun c first => ?_
    obtain rfl : 'u' = c := Option.some.inj first
    rfl
  have unmarked : ∀ c ∈ "using".toList ++ (gap ++ body), c ∉ statementMarks := by
    simp only [List.forall_mem_append]
    exact ⟨fun c member => (unmarked_of_letters (by decide) c member).1,
      fun c member => (unmarked_of_blank blank c member).1, spelled.unmarked⟩
  have shape : between ++ ("using".toList ++ (gap ++ (body ++ behind))) =
      between ++ (("using".toList ++ (gap ++ body)) ++ behind) := by simp only [List.append_assoc]
  rw [shape, trim_append_core trimmed blankBehind, ← isStatementBody_iff]
  exact Bool.eq_iff_iff.mp (isStatementBody_append unmarked (by decide))

/-- The directives are read in the order of their words. A complete one is read exactly when its own text is not taken
for that of a statement, and the text that goes on to it from an earlier `using` without a semicolon is. -/
theorem usings_of_complete (complete : IsComplete text p d body) :
    usings text = (usingsAt text).map (·.2) ∧
      ((usingsAt text).map (·.1)).Sublist (wordPlaces "using".toList text) ∧
      ((p, d) ∈ usingsAt text ↔ ¬ IsStatementText body ∧
        ∀ q ∈ wordPlaces "using".toList text, ∀ between, q.rest = "using".toList ++ (between ++ p.rest) →
          ';' ∉ between → IsStatementText between) := by
  obtain ⟨isWord, spelled, gap, behind, later, blank, blankBehind, reads⟩ := complete
  refine ⟨usings_eq_map text, usingsAt_sublist text, ?_⟩
  have has : HasUsingText p (gap ++ (body ++ behind)) := by
    have unmarked : ∀ c ∈ gap ++ (body ++ behind), c ∉ statementMarks := by
      simp only [List.forall_mem_append]
      exact ⟨fun c member => (unmarked_of_blank blank c member).1, spelled.unmarked,
        fun c member => (unmarked_of_blank blankBehind c member).1⟩
    exact ⟨fun member => unmarked _ member (by decide), later, reads⟩
  have own : isStatementBody body = true ↔ IsStatementText body := by
    rw [← isStatementBody_iff, trimStart_eq spelled.isTrimmed.first]
  have found : usingAt? p = some d ↔ ¬ IsStatementText body := by
    obtain ⟨rest, ends⟩ := has.breakFirst
    rw [usingAt?, ends]
    simp only [trim_append blank spelled.isTrimmed blankBehind, ← own]
    by_cases statement : isStatementBody body = true
    · simp [statement]
    · simp [statement, spelled.ofBody?_eq]
  simp only [mem_usingsAt, found, has.mem_reachedFrom_iff isWord, spelled.isStatementBody_before blank blankBehind]
  exact and_comm

/-- A `using` statement in front of a directive in the same line. -/
def statementText : List Char := "using(r)using static A.B;".toList

def statementDirective : Place := placeBetween "using(r)".toList "using static A.B;".toList

theorem usings_of_complete_statement :
    IsComplete statementText statementDirective (.staticsOf "A.B") "static A.B".toList ∧
      (statementDirective, .staticsOf "A.B") ∈ usingsAt statementText := by
  have isWord : statementDirective ∈ wordPlaces "using".toList statementText :=
    List.mem_filter.mpr ⟨placeBetween_mem_places "using(r)".toList 'u' "sing static A.B;".toList, by decide⟩
  have named : IsNameOf isDottedNameChar "A.B".toList := .of_all (by decide) (by decide)
  have blank : ∀ c ∈ [' '], isBlank c = true := List.forall_mem_singleton.mpr rfl
  have complete : IsComplete statementText statementDirective (.staticsOf "A.B") "static A.B".toList :=
    ⟨isWord, .staticsOf (List.cons_ne_nil _ _) blank named, [' '], [], [], blank, List.forall_mem_nil _, rfl⟩
  refine ⟨complete, (usings_of_complete complete).2.2.mpr ⟨mt isStatementBody_iff.mpr (by decide), ?_⟩⟩
  intro q inText between split _
  have words : wordPlaces "using".toList statementText = [placeBetween [] statementText, statementDirective] := by rfl
  rw [words, List.mem_cons, List.mem_singleton] at inText
  rcases inText with rfl | rfl
  · have whole : "using".toList ++ ("(r)".toList ++ statementDirective.rest) =
        "using".toList ++ (between ++ statementDirective.rest) := split
    rw [← List.append_cancel_right (List.append_cancel_left whole)]
    exact isStatementBody_iff.mp (by decide)
  · have length := congrArg List.length split
    simp only [List.length_append] at length
    have word : "using".toList.length = 5 := rfl
    omega

/-- The import in the first line is still being typed. -/
def typedImport : List Char := "using Sys\nusing System;\n".toList

/-- The directive in the second line is complete, and no directive is read. -/
theorem unfinished_using_hides_directive :
    blank typedImport = typedImport ∧
      IsComplete typedImport (placeBetween "using Sys\n".toList "using System;\n".toList) (.wholeNamespace "System")
        "System".toList ∧
      usings typedImport = [] := by
  have isWord : placeBetween "using Sys\n".toList "using System;\n".toList ∈ wordPlaces "using".toList typedImport :=
    List.mem_filter.mpr ⟨placeBetween_mem_places "using Sys\n".toList 'u' "sing System;\n".toList, by decide⟩
  have named : IsNameOf isDottedNameChar "System".toList := .of_all (by decide) (by decide)
  have complete : IsComplete typedImport _ (.wholeNamespace "System") "System".toList :=
    ⟨isWord, .wholeNamespace named, [' '], [], ['\n'], List.forall_mem_singleton.mpr rfl, List.forall_mem_nil _, rfl⟩
  exact ⟨by decide +kernel, complete, by decide +kernel⟩

end Typeahead.Source
