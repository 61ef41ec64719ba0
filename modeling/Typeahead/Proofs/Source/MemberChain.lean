import Typeahead.Proofs.Source.ByteTokens
import Typeahead.Proofs.Source.Nested
import Typeahead.Proofs.Source.Target

namespace Typeahead.Source

open Text

/-- What may stand between the brackets of a call or an indexer: text without a semicolon or a brace, in which
every parenthesis and every square bracket is closed by its own kind. -/
inductive GroupText : List Char → Prop
  | nil : GroupText []
  | plain {c : Char} {later : List Char} (bare : c ∉ ['(', ')', '[', ']', ';', '{', '}'])
      (rest : GroupText later) : GroupText (c :: later)
  | group (kind : Bracket) (unbraced : kind ≠ .brace) {inside later : List Char} (inner : GroupText inside)
      (rest : GroupText later) : GroupText (kind.opening :: (inside ++ kind.closing :: later))

theorem groupText_of_bare {cs : List Char} (bare : cs.all (· ∉ ['(', ')', '[', ']', ';', '{', '}'])) :
    GroupText cs := by
  induction cs with
  | nil => exact .nil
  | cons c cs ih =>
    rw [List.all_cons, Bool.and_eq_true, decide_eq_true_eq] at bare
    exact .plain bare.1 (ih bare.2)

/-- The brackets of a call or an indexer and what stands between them. -/
structure ChainGroup where
  kind : Bracket
  unbraced : kind ≠ .brace := by decide
  inside : List Char
  nested : GroupText inside

def ChainGroup.text (group : ChainGroup) : List Char :=
  group.kind.opening :: (group.inside ++ [group.kind.closing])

/-- A name and the calls and indexers after it. -/
structure ChainLink where
  name : List Char
  named : name ≠ [] := by decide
  letters : ∀ c ∈ name, isIdentifierChar c = true := by exact List.all_eq_true.mp (by decide)
  groups : List ChainGroup := []

def ChainLink.text (link : ChainLink) : List Char := link.name ++ link.groups.flatMap ChainGroup.text

/-- Links with a dot between any two. -/
structure MemberChain where
  first : ChainLink
  others : List ChainLink := []

def MemberChain.text (chain : MemberChain) : List Char :=
  chain.first.text ++ chain.others.flatMap fun link => '.' :: link.text

/-- A character in front of a chain that cannot be a part of it. -/
def EndsBefore (c : Char) : Prop := isIdentifierChar c = false ∧ c ∉ ['.', ')', ']']

/-- Reading backwards goes past the whole text, whatever stands in front of it and was read before. -/
def ReadsBack (cs : List Char) : Prop :=
  ∀ taken rest : List Char, entityBack taken (cs.reverse ++ rest) = entityBack (cs ++ taken) rest

variable {c : Char} {cs ds taken rest inside : List Char} {depth : Nat}

theorem ReadsBack.append (first : ReadsBack cs) (second : ReadsBack ds) : ReadsBack (cs ++ ds) := by
  intro taken rest
  rw [List.reverse_append, List.append_assoc, second, first, List.append_assoc]

theorem readsBack_nil : ReadsBack [] := fun _ _ => rfl

theorem readsBack_letter (letter : (isIdentifierChar c || c == '.') = true) : ReadsBack [c] := by
  intro taken rest
  have step : stepBack taken (c :: rest) = some (c :: taken, rest) := by rw [stepBack, if_pos letter]
  exact entityBack_of_step step

theorem readsBack_letters (letters : ∀ c ∈ cs, isIdentifierChar c = true) : ReadsBack cs := by
  induction cs with
  | nil => exact readsBack_nil
  | cons c cs ih =>
    have letter : (isIdentifierChar c || c == '.') = true := by simp [letters c List.mem_cons_self]
    exact (readsBack_letter letter).append (ih fun d inside => letters d (List.mem_cons_of_mem c inside))

theorem groupBack_other {opening closing : Char} (notClosing : c ≠ closing) (notOpening : c ≠ opening)
    (unended : ¬(c = ';' ∨ c = '{' ∨ c = '}')) :
    groupBack opening closing depth taken (c :: rest) = groupBack opening closing depth (c :: taken) rest := by
  rw [groupBack, if_neg notClosing, if_neg notOpening, if_neg unended]

/-- The search for an opening bracket goes past what may stand in a group with the same number of groups left. -/
theorem groupBack_groupText (kind : Bracket) (nested : GroupText inside) (taken rest : List Char) :
    groupBack kind.opening kind.closing (depth + 1) taken (inside.reverse ++ rest) =
      groupBack kind.opening kind.closing (depth + 1) (inside ++ taken) rest := by
  induction nested generalizing depth taken rest with
  | nil => rfl
  | @plain c later bare _ ih =>
    simp only [List.mem_cons, List.not_mem_nil, or_false, not_or] at bare
    have notClosing : c ≠ kind.closing := by cases kind <;> simp [Bracket.closing, bare]
    have notOpening : c ≠ kind.opening := by cases kind <;> simp [Bracket.opening, bare]
    rw [List.reverse_cons, List.append_assoc, ih, List.singleton_append,
      groupBack_other notClosing notOpening (by simp [bare]), List.cons_append]
  | @group other unbraced inner later _ _ ihInner ihLater =>
    have shape : (other.opening :: (inner ++ other.closing :: later)).reverse ++ rest =
        later.reverse ++ other.closing :: (inner.reverse ++ other.opening :: rest) := by simp
    rw [shape, ihLater, List.cons_append, List.append_assoc, List.cons_append]
    -- a group of the same kind is counted and counted off again; brackets of another kind do not count
    by_cases same : other = kind
    · subst same
      rw [groupBack, if_pos rfl, ihInner, groupBack, if_neg other.closing_ne_opening.symm, if_pos rfl,
        if_neg (by omega), Nat.add_sub_cancel]
    · obtain ⟨a, b, c, d⟩ := Bracket.opening_ne same
      have unended : ∀ d ∈ [other.opening, other.closing], ¬(d = ';' ∨ d = '{' ∨ d = '}') := by
        cases other with
        | brace => exact absurd rfl unbraced
        | paren | square => simp [Bracket.opening, Bracket.closing]
      rw [groupBack_other d c (unended _ (by simp)), ihInner, groupBack_other b a (unended _ (by simp))]

/-- A step backwards over a closing bracket takes the group that it closes. -/
theorem readsBack_group (group : ChainGroup) : ReadsBack group.text := by
  intro taken rest
  obtain ⟨kind, unbraced, inside, nested⟩ := group
  have shape : (ChainGroup.text ⟨kind, unbraced, inside, nested⟩).reverse ++ rest =
      kind.closing :: (inside.reverse ++ kind.opening :: rest) := by simp [ChainGroup.text]
  have whole :
      groupBack kind.opening kind.closing 0 taken (kind.closing :: (inside.reverse ++ kind.opening :: rest)) =
      some (kind.opening :: (inside ++ kind.closing :: taken), rest) := by
    rw [groupBack, if_pos rfl, groupBack_groupText kind nested, groupBack,
      if_neg kind.closing_ne_opening.symm, if_pos rfl, if_pos (Nat.le_refl 1)]
  have step : stepBack taken (kind.closing :: (inside.reverse ++ kind.opening :: rest)) =
      some (kind.opening :: (inside ++ kind.closing :: taken), rest) := by
    rw [← whole]
    cases kind with
    | brace => exact absurd rfl unbraced
    | paren | square => rfl
  rw [shape, entityBack_of_step step]
  simp [ChainGroup.text]

theorem readsBack_flatMap {α : Type} {text : α → List Char} {parts : List α}
    (all : ∀ part ∈ parts, ReadsBack (text part)) : ReadsBack (parts.flatMap text) := by
  induction parts with
  | nil => exact readsBack_nil
  | cons part parts ih =>
    rw [List.flatMap_cons]
    exact (all part List.mem_cons_self).append (ih fun other inside => all other (List.mem_cons_of_mem part inside))

theorem readsBack_link (link : ChainLink) : ReadsBack link.text :=
  (readsBack_letters link.letters).append (readsBack_flatMap fun group _ => readsBack_group group)

theorem readsBack_chain (chain : MemberChain) : ReadsBack chain.text :=
  (readsBack_link chain.first).append
    (readsBack_flatMap fun link _ => (readsBack_letter rfl : ReadsBack ['.']).append (readsBack_link link))

/-- A chain starts with a character of a name. -/
theorem MemberChain.exists_text (chain : MemberChain) :
    ∃ c more, chain.text = c :: more ∧ isIdentifierChar c = true := by
  obtain ⟨⟨name, named, letters, groups⟩, others⟩ := chain
  obtain ⟨c, more, rfl⟩ := List.exists_cons_of_ne_nil named
  exact ⟨c, _, rfl, letters c List.mem_cons_self⟩

theorem stepBack_eq_none (before : EndsBefore c) (inName : taken.head? ≠ some '(') :
    stepBack taken (c :: rest) = none := by
  obtain ⟨notLetter, other⟩ := before
  simp only [List.mem_cons, List.not_mem_nil, or_false, not_or] at other
  simp [stepBack, notLetter, other, inName]

/-- Reading backwards from the end of a chain and a name typed after it stops in front of the chain. -/
theorem entityBack_chain {front typed : List Char} (chain : MemberChain)
    (apart : ∀ c ∈ front.getLast?, EndsBefore c) (letters : ∀ c ∈ typed, isIdentifierChar c = true) :
    entityBack [] (front ++ chain.text ++ '.' :: typed).reverse = chain.text ++ '.' :: typed := by
  have dot : ReadsBack ['.'] := readsBack_letter rfl
  have whole : ReadsBack (chain.text ++ ('.' :: typed)) :=
    (readsBack_chain chain).append (dot.append (readsBack_letters letters))
  obtain ⟨first, more, starts, letter⟩ := chain.exists_text
  have inName : (chain.text ++ '.' :: typed).head? ≠ some '(' := by
    rw [starts]
    rintro ⟨rfl⟩
    exact absurd letter (by decide)
  rw [List.append_assoc, List.reverse_append, whole, List.append_nil]
  refine entityBack_of_stop ?_
  rw [List.getLast?_eq_head?_reverse] at apart
  cases shape : front.reverse with
  | nil => rfl
  | cons c rest => exact stepBack_eq_none (apart c (by simp [shape])) inName

/-- What a character adds to the depth at which the search for the last dot is. -/
def depthStep (c : Char) : Int :=
  if c = '(' ∨ c = '[' ∨ c = '<' then 1 else if c = ')' ∨ c = ']' ∨ c = '>' then -1 else 0

/-- The depth behind a text that starts at depth zero. -/
def depthBehind : List Char → Int
  | [] => 0
  | c :: cs => depthStep c + depthBehind cs

theorem depthBehind_append (cs ds : List Char) : depthBehind (cs ++ ds) = depthBehind cs + depthBehind ds := by
  induction cs with
  | nil => simp [depthBehind]
  | cons c cs ih => rw [List.cons_append, depthBehind, ih, depthBehind, Int.add_assoc]

theorem splitLastDot_cons (depth : Int) (c : Char) (cs : List Char) :
    splitLastDot depth (c :: cs) =
      match splitLastDot (depth + depthStep c) cs with
      | some (earlier, later) => some (c :: earlier, later)
      | none => if c = '.' ∧ depth = 0 then some ([], cs) else none := by
  have deeper : (if c = '(' ∨ c = '[' ∨ c = '<' then depth + 1
      else if c = ')' ∨ c = ']' ∨ c = '>' then depth - 1 else depth) = depth + depthStep c := by
    unfold depthStep
    split
    · rfl
    · split <;> omega
  cases found : splitLastDot (depth + depthStep c) cs <;> simp only [splitLastDot, deeper, found]

/-- The search ends at depth zero. -/
theorem depthBehind_of_splitLastDot {depth : Int} {earlier later : List Char}
    (found : splitLastDot depth cs = some (earlier, later)) : depth + depthBehind earlier = 0 := by
  induction cs generalizing depth earlier later with
  | nil => simp [splitLastDot] at found
  | cons c cs ih =>
    rw [splitLastDot_cons] at found
    split at found
    · next front back inner =>
      simp only [Option.some.injEq, Prod.mk.injEq] at found
      obtain ⟨rfl, rfl⟩ := found
      have deeper := ih inner
      rw [depthBehind]
      omega
    · split at found
      · next dot =>
        simp only [Option.some.injEq, Prod.mk.injEq] at found
        obtain ⟨rfl, rfl⟩ := found
        rw [dot.2]
        rfl
      · simp at found

theorem splitLastDot_eq_none (depth : Int) (undotted : '.' ∉ cs) : splitLastDot depth cs = none := by
  cases found : splitLastDot depth cs with
  | none => rfl
  | some parts =>
    rw [eq_append_of_splitLastDot found] at undotted
    exact absurd (by simp) undotted

/-- The last dot is found at depth zero. -/
theorem splitLastDot_append {depth : Int} {later : List Char} (level : depth + depthBehind cs = 0)
    (undotted : '.' ∉ later) : splitLastDot depth (cs ++ '.' :: later) = some (cs, later) := by
  induction cs generalizing depth with
  | nil =>
    have ground : depth = 0 := by simpa [depthBehind] using level
    rw [List.nil_append, splitLastDot_cons, splitLastDot_eq_none _ undotted]
    simp [ground]
  | cons c cs ih =>
    rw [depthBehind] at level
    rw [List.cons_append, splitLastDot_cons, ih (by omega)]

/-- Outside angle brackets the depth is the same behind the text as before it. -/
def CountsAngles (cs : List Char) : Prop := depthBehind cs = cs.count '<' - cs.count '>'

theorem CountsAngles.append (first : CountsAngles cs) (second : CountsAngles ds) : CountsAngles (cs ++ ds) := by
  unfold CountsAngles at *
  rw [depthBehind_append, List.count_append, List.count_append]
  omega

theorem countsAngles_char (unbracketed : c ∉ ['(', ')', '[', ']']) : CountsAngles [c] := by
  simp only [List.mem_cons, List.not_mem_nil, or_false, not_or] at unbracketed
  by_cases opens : c = '<'
  · subst opens
    rfl
  · by_cases closes : c = '>'
    · subst closes
      rfl
    · simp [CountsAngles, depthBehind, depthStep, unbracketed, opens, closes]

theorem countsAngles_letters (letters : ∀ c ∈ cs, isIdentifierChar c = true) : CountsAngles cs := by
  induction cs with
  | nil => rfl
  | cons c cs ih =>
    have letter := letters c List.mem_cons_self
    have unbracketed : c ∉ ['(', ')', '[', ']'] := by
      intro bracket
      simp only [List.mem_cons, List.not_mem_nil, or_false] at bracket
      rcases bracket with rfl | rfl | rfl | rfl <;> exact absurd letter (by decide)
    exact (countsAngles_char unbracketed).append (ih fun d inside => letters d (List.mem_cons_of_mem c inside))

theorem CountsAngles.group {kind : Bracket} (unbraced : kind ≠ .brace) (inner : CountsAngles inside) :
    CountsAngles (kind.opening :: (inside ++ [kind.closing])) := by
  have steps : depthStep kind.opening = 1 ∧ depthStep kind.closing = -1 := by
    cases kind with
    | brace => exact absurd rfl unbraced
    | paren | square => decide
  have noAngles : ∀ c ∈ ['<', '>'], kind.opening ≠ c ∧ kind.closing ≠ c := by
    cases kind <;> simp [Bracket.opening, Bracket.closing]
  have closes : depthBehind [kind.closing] = -1 := by simp [depthBehind, steps.2]
  have counts : ∀ c ∈ ['<', '>'], (kind.opening :: (inside ++ [kind.closing])).count c = inside.count c := by
    intro c angle
    simp [noAngles c angle]
  unfold CountsAngles at *
  rw [depthBehind, depthBehind_append, closes, steps.1, counts '<' (by simp), counts '>' (by simp)]
  omega

theorem countsAngles_groupText (nested : GroupText inside) : CountsAngles inside := by
  induction nested with
  | nil => rfl
  | @plain c later bare _ ih =>
    simp only [List.mem_cons, List.not_mem_nil, or_false, not_or] at bare
    exact (countsAngles_char (by simp [bare])).append ih
  | @group kind unbraced inner later _ _ ihInner ihLater =>
    have parts := (CountsAngles.group unbraced ihInner).append ihLater
    simpa using parts

theorem countsAngles_flatMap {α : Type} {text : α → List Char} {parts : List α}
    (all : ∀ part ∈ parts, CountsAngles (text part)) : CountsAngles (parts.flatMap text) := by
  induction parts with
  | nil => rfl
  | cons part parts ih =>
    rw [List.flatMap_cons]
    exact (all part List.mem_cons_self).append (ih fun other inside => all other (List.mem_cons_of_mem part inside))

theorem countsAngles_link (link : ChainLink) : CountsAngles link.text :=
  (countsAngles_letters link.letters).append
    (countsAngles_flatMap fun group _ => .group group.unbraced (countsAngles_groupText group.nested))

theorem countsAngles_chain (chain : MemberChain) : CountsAngles chain.text :=
  (countsAngles_link chain.first).append (countsAngles_flatMap fun link _ =>
    (countsAngles_char (by decide) : CountsAngles ['.']).append (countsAngles_link link))

/-- What is typed after a chain. The access expression is the chain with the typed name, whatever stands in its
groups; and it is split in front of that name if and only if the groups hold as many opening as closing angle
brackets, so that the comparisons, shifts and arrows in them even out. -/
theorem Target.of_memberChain (front : List Char) (chain : MemberChain) (typed : List Char)
    (apart : ∀ c ∈ front.getLast?, EndsBefore c) (letters : ∀ c ∈ typed, isIdentifierChar c = true) :
    let target := Target.of (front ++ chain.text ++ '.' :: typed)
    target.entity = String.ofList (chain.text ++ '.' :: typed) ∧
      (target.chain = String.ofList chain.text ∧ target.lookAhead = String.ofList typed ↔
        chain.text.count '<' = chain.text.count '>') := by
  intro target
  have read := entityBack_chain chain apart letters
  have counted : depthBehind chain.text = chain.text.count '<' - chain.text.count '>' := countsAngles_chain chain
  refine ⟨by rw [Target.entity_of, read], ?_, ?_⟩
  · rintro ⟨isChain, -⟩
    simp only [target, Target.of, read] at isChain
    split at isChain
    · next earlier later found =>
      obtain rfl := String.ofList_injective isChain
      have level := depthBehind_of_splitLastDot found
      omega
    · obtain ⟨c, more, starts, -⟩ := chain.exists_text
      simp [starts] at isChain
  · intro even
    have undotted : '.' ∉ typed := fun inside => absurd (letters _ inside) (by decide)
    have found : splitLastDot 0 (chain.text ++ '.' :: typed) = some (chain.text, typed) :=
      splitLastDot_append (by omega) undotted
    simp only [target, Target.of, read, found, and_self]

/-- A chain with a call that is passed two comparisons, and an index. -/
def comparingChain : MemberChain where
  first := { name := "lots".toList }
  others := [
    { name := "Find".toList
      groups := [
        { kind := .paren
          inside := "(x<lo)|hi>x".toList
          nested := .group .paren (by decide)
            (show GroupText "x<lo".toList from groupText_of_bare (by decide))
            (groupText_of_bare (by decide)) },
        { kind := .square, inside := "n".toList, nested := groupText_of_bare (by decide) }] }]

theorem Target.of_memberChain_comparing :
    (∀ c ∈ "return ".toList.getLast?, EndsBefore c) ∧ (∀ c ∈ "Na".toList, isIdentifierChar c = true) ∧
      (Target.of "return lots.Find((x<lo)|hi>x)[n].Na".toList).entity = "lots.Find((x<lo)|hi>x)[n].Na" ∧
      (Target.of "return lots.Find((x<lo)|hi>x)[n].Na".toList).chain = "lots.Find((x<lo)|hi>x)[n]" ∧
      (Target.of "return lots.Find((x<lo)|hi>x)[n].Na".toList).lookAhead = "Na" := by
  have apart : ∀ c ∈ "return ".toList.getLast?, EndsBefore c := by
    rintro c ⟨rfl⟩
    exact ⟨by decide, by decide⟩
  have letters : ∀ c ∈ "Na".toList, isIdentifierChar c = true := List.all_eq_true.mp (by decide)
  obtain ⟨entity, split⟩ := Target.of_memberChain "return ".toList comparingChain "Na".toList apart letters
  obtain ⟨chain, lookAhead⟩ := split.mpr (by decide)
  exact ⟨apart, letters, entity, chain, lookAhead⟩

/-- A chain with a call that is passed a function. -/
def selectingChain : MemberChain where
  first := { name := "foo".toList }
  others := [
    { name := "Bar".toList
      groups := [{ kind := .paren, inside := "x => x.A".toList, nested := groupText_of_bare (by decide) }] }]

/-- The arrow of the function counts as a closing bracket, so the chain is split at the dot behind it. -/
theorem Target.splits_behind_arrow :
    let target := Target.of (selectingChain.text ++ '.' :: "B".toList)
    selectingChain.text = "foo.Bar(x => x.A)".toList ∧
      ¬(target.chain = String.ofList selectingChain.text ∧ target.lookAhead = "B") ∧
      target.chain = "foo.Bar(x => x" ∧ target.lookAhead = "A).B" := by
  decide +kernel

end Typeahead.Source
