import Typeahead.Source.Chain

namespace Typeahead.Source

open Text

/-- Whether a text closes its own brackets and the `depth` ones that are open before it, with separators only
inside of brackets. -/
def isBalanced (opening closing separators : List Char) : Nat → List Char → Bool
  | depth, [] => depth == 0
  | depth, c :: cs =>
    if c ∈ opening then isBalanced opening closing separators (depth + 1) cs
    else if c ∈ closing then decide (0 < depth) && isBalanced opening closing separators (depth - 1) cs
    else (decide (0 < depth) || decide (c ∉ separators)) && isBalanced opening closing separators depth cs

/-- A name may hold anything but blanks, dots and brackets. -/
def isNameLetter (c : Char) : Bool := !isBlank c && !(['.', '(', ')', '[', ']', '<', '>'].contains c)

def isNameText (cs : List Char) : Bool := !cs.isEmpty && cs.all isNameLetter

def isGenericText (cs : List Char) : Bool := isBalanced ['<'] ['>'] [] 0 cs

/-- Round and square brackets count as one kind. -/
def isIndexText (cs : List Char) : Bool := isBalanced ['(', '['] [')', ']'] [] 0 cs

def isArgumentText (cs : List Char) : Bool := isBalanced ['(', '['] [')', ']'] [','] 0 cs && !cs.all isBlank

/-- A segment of a chain as it is written. -/
structure WrittenSegment where
  name : List Char
  /-- The text between the angle brackets of type arguments. -/
  generics : Option (List Char) := none
  /-- The arguments of a call. -/
  call : Option (List (List Char)) := none
  /-- The texts of the indexers. -/
  indexes : List (List Char) := []
  isName : isNameText name = true := by rfl
  isGeneric : generics.all isGenericText = true := by rfl
  areArguments : call.all (·.all isArgumentText) = true := by rfl
  areIndexes : indexes.all isIndexText = true := by rfl

def genericsText (text : List Char) : List Char := '<' :: (text ++ ['>'])

def callText (arguments : List (List Char)) : List Char := '(' :: ([','].intercalate arguments ++ [')'])

def indexText (text : List Char) : List Char := '[' :: (text ++ [']'])

namespace WrittenSegment

def text (s : WrittenSegment) : List Char :=
  s.name ++ (s.generics.elim [] genericsText ++ (s.call.elim [] callText ++ s.indexes.flatMap indexText))

/-- What is to be read of a segment. -/
def segment (s : WrittenSegment) : Segment where
  name := String.ofList s.name
  argumentCount := s.call.map List.length
  indexDepth := s.indexes.length

end WrittenSegment

/-- Segments with dots between them. -/
def chainText (chain : List WrittenSegment) : List Char := ['.'].intercalate (chain.map (·.text))

namespace ChainReader

variable {r : ChainReader}

/-- Notes a text as part of the argument list being read. -/
def noteArguments (r : ChainReader) (cs : List Char) : ChainReader :=
  { r with call := r.call.map fun call => { call with blank := call.blank && cs.all isBlank } }

theorem noteArguments_nil (r : ChainReader) : r.noteArguments [] = r := by
  cases r with
  | mk segments current depth angles call => cases call <;> simp [noteArguments]

theorem noteArguments_noteArgument (r : ChainReader) (c : Char) (cs : List Char) :
    (r.noteArgument c).noteArguments cs = r.noteArguments (c :: cs) := by
  cases r with
  | mk segments current depth angles call => cases call <;> simp [noteArguments, noteArgument, Bool.and_assoc]

theorem noteArgument_of_noCall (noCall : r.call = none) (c : Char) : r.noteArgument c = r := by
  cases r with
  | mk segments current depth angles call =>
    obtain rfl : call = none := noCall
    rfl

section Inside

variable {c : Char} (unangled : r.angles = 0)

include unangled

theorem step_opening (inside : 0 < r.depth) (opens : c ∈ ['(', '[']) :
    r.step c = { r.noteArgument c with depth := r.depth + 1 } := by
  have deep : r.depth ≠ 0 := by omega
  rcases List.mem_cons.mp opens with rfl | square
  · simp [step, unangled, deep]
  · rw [List.mem_singleton.mp square]
    simp [step, unangled, deep, noteArgument]

theorem step_closing (inside : 1 < r.depth) (closes : c ∈ [')', ']']) :
    r.step c = { r.noteArgument c with depth := r.depth - 1 } := by
  have deep : r.depth ≠ 1 := by omega
  rcases List.mem_cons.mp closes with rfl | square
  · simp [step, unangled, deep]
  · rw [List.mem_singleton.mp square]
    simp [step, unangled, noteArgument]

theorem step_inside (inside : 0 < r.depth) (notOpening : c ∉ ['(', '[']) (notClosing : c ∉ [')', ']'])
    (undivided : r.depth = 1 → r.call.isSome = true → c ≠ ',') : r.step c = r.noteArgument c := by
  have deep : r.depth ≠ 0 := by omega
  simp only [List.mem_cons, List.not_mem_nil, or_false, not_or] at notOpening notClosing
  rw [step, if_neg (by omega), if_neg fun angle => deep angle.2, if_neg notOpening.1, if_neg notClosing.1,
    if_neg notOpening.2, if_neg notClosing.2]
  split
  · next call atCall isCall => rw [if_neg (undivided atCall (by simp [isCall]))]
  · next surface => exact absurd surface deep
  · rfl

/-- Over a text that is balanced the reader goes back to the depth of the outermost bracket, and notes no more than
whether all was blank. -/
theorem foldl_balanced {separators cs : List Char} {depth : Nat}
    (balanced : isBalanced ['(', '['] [')', ']'] separators depth cs = true) (atDepth : r.depth = depth + 1)
    (divided : r.call.isSome = true → ',' ∈ separators) :
    cs.foldl step r = { r.noteArguments cs with depth := 1 } := by
  induction cs generalizing r depth with
  | nil =>
    obtain rfl : depth = 0 := by simpa [isBalanced] using balanced
    have surface : r.depth = 1 := by simpa using atDepth
    rw [List.foldl_nil, noteArguments_nil, ← surface]
  | cons c cs ih =>
    have called : (r.noteArgument c).call.isSome = true → ',' ∈ separators := by
      simpa [noteArgument] using divided
    rw [isBalanced] at balanced
    rw [List.foldl_cons, ← noteArguments_noteArgument]
    split at balanced
    · next opens =>
      rw [step_opening unangled (by omega) opens]
      exact ih unangled balanced (by simp [atDepth]) called
    · next notOpening =>
      split at balanced
      · next closes =>
        obtain ⟨inside, balanced⟩ := Bool.and_eq_true_iff.mp balanced
        have inside : 0 < depth := of_decide_eq_true inside
        rw [step_closing unangled (by omega) closes]
        exact ih unangled balanced (by simp only [atDepth]; omega) called
      · next notClosing =>
        obtain ⟨inside, balanced⟩ := Bool.and_eq_true_iff.mp balanced
        have undivided : r.depth = 1 → r.call.isSome = true → c ≠ ',' := by
          rintro surface isCall rfl
          have separates := divided isCall
          have : depth = 0 := by omega
          simp [this, separates] at inside
        rw [step_inside unangled (by omega) notOpening notClosing undivided]
        exact ih unangled balanced atDepth called

end Inside

theorem foldl_angles {cs : List Char} {depth : Nat} (balanced : isBalanced ['<'] ['>'] [] depth cs = true)
    (angled : r.angles = depth + 1) (noCall : r.call = none) : cs.foldl step r = { r with angles := 1 } := by
  induction cs generalizing r depth with
  | nil =>
    obtain rfl : depth = 0 := by simpa [isBalanced] using balanced
    have outermost : r.angles = 1 := by simpa using angled
    rw [List.foldl_nil, ← outermost]
  | cons c cs ih =>
    rw [isBalanced] at balanced
    rw [List.foldl_cons, step, if_pos (by omega)]
    simp only [noteArgument_of_noCall noCall]
    split at balanced
    · next opens =>
      rw [if_pos (List.mem_singleton.mp opens)]
      exact ih balanced (by simp [angled]) noCall
    · next notOpening =>
      rw [if_neg fun same => notOpening (List.mem_singleton.mpr same)]
      split at balanced
      · next closes =>
        obtain ⟨inside, balanced⟩ := Bool.and_eq_true_iff.mp balanced
        have inside : 0 < depth := of_decide_eq_true inside
        rw [if_pos (List.mem_singleton.mp closes)]
        exact ih balanced (by simp only [angled]; omega) noCall
      · next notClosing =>
        rw [if_neg fun same => notClosing (List.mem_singleton.mpr same)]
        exact ih (Bool.and_eq_true_iff.mp balanced).2 angled noCall

theorem step_letter {c : Char} (letter : isNameLetter c = true) (segments : List Segment) (current : List Char) :
    step { segments, current } c = { segments, current := c :: current } := by
  simp only [isNameLetter, List.contains_cons, List.contains_nil, Bool.or_false, Bool.and_eq_true, Bool.not_eq_true',
    Bool.or_eq_false_iff, beq_eq_false_iff_ne] at letter
  simp [step, noteArgument, letter]

theorem foldl_letters {cs : List Char} (letters : cs.all isNameLetter = true) (segments : List Segment)
    (current : List Char) :
    cs.foldl step { segments, current } = { segments, current := cs.reverse ++ current } := by
  induction cs generalizing current with
  | nil => rfl
  | cons c cs ih =>
    obtain ⟨letter, letters⟩ := Bool.and_eq_true_iff.mp letters
    rw [List.foldl_cons, step_letter letter, ih letters, List.reverse_cons, List.append_assoc, List.singleton_append]

/-- The reader stands behind a segment, which it may still have to end. -/
def Reads (earlier : List Segment) (seg : Segment) (r : ChainReader) : Prop :=
  r.endName = { segments := seg :: earlier }

section Behind

variable {earlier : List Segment} {seg : Segment}

theorem reads_ended (earlier : List Segment) (seg : Segment) : Reads earlier seg { segments := seg :: earlier } := rfl

theorem Reads.eq_idle (reads : Reads earlier seg r) : r.angles = 0 ∧ r.depth = 0 ∧ r.call = none := by
  unfold Reads endName at reads
  split at reads
  · subst reads
    exact ⟨rfl, rfl, rfl⟩
  · simp only [ChainReader.mk.injEq] at reads
    exact ⟨reads.2.2.2.1, reads.2.2.1, reads.2.2.2.2⟩

theorem Reads.step_dot (reads : Reads earlier seg r) : r.step '.' = { segments := seg :: earlier } := by
  obtain ⟨unangled, surface, noCall⟩ := reads.eq_idle
  rw [Reads] at reads
  simp [step, unangled, surface, noteArgument_of_noCall noCall, reads]

theorem Reads.generics (reads : Reads earlier seg r) {text : List Char} (balanced : isGenericText text = true) :
    Reads earlier seg ((genericsText text).foldl step r) := by
  obtain ⟨unangled, surface, noCall⟩ := reads.eq_idle
  rw [Reads] at reads
  have opened : r.step '<' = { segments := seg :: earlier, angles := 1 } := by
    simp [step, unangled, surface, noteArgument_of_noCall noCall, reads]
  rw [genericsText, List.foldl_cons, opened, List.foldl_append, foldl_angles balanced rfl rfl]
  exact reads_ended earlier seg

theorem Reads.index (reads : Reads earlier seg r) {text : List Char} (balanced : isIndexText text = true) :
    Reads earlier { seg with indexDepth := seg.indexDepth + 1 } ((indexText text).foldl step r) := by
  obtain ⟨unangled, surface, noCall⟩ := reads.eq_idle
  rw [Reads] at reads
  have opened : r.step '[' =
      { segments := { seg with indexDepth := seg.indexDepth + 1 } :: earlier, depth := 1 } := by
    simp [step, unangled, surface, noteArgument_of_noCall noCall, reads, changeLast]
  rw [indexText, List.foldl_cons, opened, List.foldl_append, foldl_balanced rfl balanced rfl (by simp)]
  exact reads_ended earlier _

theorem Reads.indexes (reads : Reads earlier seg r) {texts : List (List Char)}
    (balanced : ∀ text ∈ texts, isIndexText text = true) :
    Reads earlier { seg with indexDepth := seg.indexDepth + texts.length }
      ((texts.flatMap indexText).foldl step r) := by
  induction texts generalizing r seg with
  | nil => exact reads
  | cons text texts ih =>
    obtain ⟨here, later⟩ := List.forall_mem_cons.mp balanced
    have behind := ih (reads.index here) later
    rw [List.flatMap_cons, List.foldl_append, List.length_cons]
    rwa [Nat.add_assoc, Nat.add_comm 1] at behind

/-- One comma less than arguments, and not all is blank. -/
theorem foldl_arguments {text : List Char} {texts : List (List Char)}
    (areArguments : ∀ argument ∈ text :: texts, isArgumentText argument = true) (segments : List Segment)
    (call : OpenCall) :
    ([','].intercalate (text :: texts)).foldl step { segments, depth := 1, call := some call } =
      { segments, depth := 1, call := some ⟨call.commas + texts.length, false⟩ } := by
  induction texts generalizing text call with
  | nil =>
    obtain ⟨balanced, visible⟩ := Bool.and_eq_true_iff.mp (areArguments text List.mem_cons_self)
    have notBlank : text.all isBlank = false := by simpa using visible
    rw [List.intercalate_singleton, foldl_balanced rfl balanced rfl (by simp)]
    simp [noteArguments, notBlank]
  | cons next texts ih =>
    obtain ⟨here, later⟩ := List.forall_mem_cons.mp areArguments
    obtain ⟨balanced, -⟩ := Bool.and_eq_true_iff.mp here
    have divided (blank : Bool) : step { segments, depth := 1, call := some ⟨call.commas, blank⟩ } ',' =
        { segments, depth := 1, call := some ⟨call.commas + 1, false⟩ } := rfl
    rw [List.intercalate_cons_cons, List.foldl_append, List.foldl_append, foldl_balanced rfl balanced rfl (by simp),
      List.foldl_cons, List.foldl_nil]
    simp only [noteArguments, Option.map_some]
    rw [divided, ih later, List.length_cons, Nat.add_assoc, Nat.add_comm 1]

theorem Reads.call (reads : Reads earlier seg r) {texts : List (List Char)}
    (areArguments : ∀ text ∈ texts, isArgumentText text = true) :
    Reads earlier { seg with argumentCount := some texts.length } ((callText texts).foldl step r) := by
  obtain ⟨unangled, surface, noCall⟩ := reads.eq_idle
  rw [Reads] at reads
  have opened : r.step '(' = { segments := seg :: earlier, depth := 1, call := some ⟨0, true⟩ } := by
    simp [step, unangled, surface, reads]
  rw [callText, List.foldl_cons, opened, List.foldl_append]
  cases texts with
  | nil => exact reads_ended earlier _
  | cons text texts =>
    rw [foldl_arguments areArguments, List.length_cons]
    simp only [Nat.zero_add]
    exact reads_ended earlier _

/-- Whatever has been read before, a segment is read as it was written. -/
theorem reads_text (s : WrittenSegment) (earlier : List Segment) :
    Reads earlier s.segment (s.text.foldl step { segments := earlier }) := by
  have named : Reads earlier { name := String.ofList s.name }
      (s.name.foldl step { segments := earlier }) := by
    obtain ⟨nonempty, letters⟩ := Bool.and_eq_true_iff.mp s.isName
    rw [foldl_letters letters, List.append_nil, Reads, endName, if_neg (by simpa using nonempty),
      List.reverse_reverse]
  have applied : Reads earlier { name := String.ofList s.name }
      ((s.generics.elim [] genericsText).foldl step (s.name.foldl step { segments := earlier })) := by
    cases generics : s.generics with
    | none => exact named
    | some text => exact named.generics (by simpa [generics] using s.isGeneric)
  have called : Reads earlier { name := String.ofList s.name, argumentCount := s.call.map List.length }
      ((s.call.elim [] callText).foldl step
        ((s.generics.elim [] genericsText).foldl step (s.name.foldl step { segments := earlier }))) := by
    cases call : s.call with
    | none => exact applied
    | some texts => exact applied.call (by simpa [call] using s.areArguments)
  have whole := called.indexes (List.all_eq_true.mp s.areIndexes)
  rw [Nat.zero_add] at whole
  rw [WrittenSegment.text, List.foldl_append, List.foldl_append, List.foldl_append]
  exact whole

theorem reads_chainText (s : WrittenSegment) (chain : List WrittenSegment) (earlier : List Segment) :
    ((chainText (s :: chain)).foldl step { segments := earlier }).endName =
      { segments := (chain.map (·.segment)).reverse ++ s.segment :: earlier } := by
  induction chain generalizing s earlier with
  | nil =>
    rw [chainText, List.map_singleton, List.intercalate_singleton]
    exact reads_text s earlier
  | cons next chain ih =>
    have split : chainText (s :: next :: chain) = s.text ++ '.' :: chainText (next :: chain) := by
      simp only [chainText, List.map_cons, List.intercalate_cons_cons, List.append_assoc, List.singleton_append]
    rw [split, List.foldl_append, List.foldl_cons, (reads_text s earlier).step_dot, ih]
    simp

end Behind

end ChainReader

/-- Reading a chain gives back what was written: every segment under its name, with the number of its arguments if
it is called and the number of its indexers, whatever text stands inside its brackets. -/
theorem segmentsOf_chainText (chain : List WrittenSegment) :
    segmentsOf (chainText chain) = chain.map (·.segment) := by
  cases chain with
  | nil => rfl
  | cons s chain =>
    rw [segmentsOf, ChainReader.reads_chainText]
    simp

example :
    segmentsOf (chainText [{ name := "a".toList, indexes := ["i[0], j".toList, "b.c".toList] },
      { name := "Map".toList, generics := some "List<int>, (string, int)[]".toList,
        call := some ["x < y".toList, " f(a, b).g ".toList, "(p) => p[0]>>q".toList] },
      { name := "End".toList, call := some [] }]) =
    [⟨"a", none, 2⟩, ⟨"Map", some 3, 0⟩, ⟨"End", some 0, 0⟩] := by
  decide +kernel

end Typeahead.Source
