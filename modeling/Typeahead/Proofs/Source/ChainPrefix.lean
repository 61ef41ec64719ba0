import Typeahead.Proofs.Source.ChainText
import Typeahead.Source.Chain
import Typeahead.Text.Place

namespace Typeahead.Source

open Text

namespace ChainReader

variable {r : ChainReader} {first : Segment}

/-- The reader with one more segment before all that were read. -/
def behind (first : Segment) (r : ChainReader) : ChainReader := { r with segments := r.segments ++ [first] }

theorem endName_behind (r : ChainReader) : (r.behind first).endName = r.endName.behind first := by
  unfold endName
  split
  · next empty => rw [if_pos (by simpa [behind] using empty)]
  · next name => rw [if_neg (by simpa [behind] using name)]; rfl

theorem changeLast_behind (read : r.segments ≠ []) (change : Segment → Segment) :
    (r.behind first).changeLast change = (r.changeLast change).behind first := by
  obtain ⟨last, earlier, shape⟩ := List.exists_cons_of_ne_nil read
  simp [changeLast, behind, shape]

theorem endCall_behind (read : r.segments ≠ []) (call : OpenCall) :
    (r.behind first).endCall call = (r.endCall call).behind first := by
  simp only [endCall, changeLast_behind read]
  rfl

theorem current_changeLast (r : ChainReader) (change : Segment → Segment) :
    (r.changeLast change).current = r.current := by
  unfold changeLast
  split <;> rfl

theorem segments_changeLast (read : r.segments ≠ []) (change : Segment → Segment) :
    (r.changeLast change).segments ≠ [] := by
  obtain ⟨last, earlier, shape⟩ := List.exists_cons_of_ne_nil read
  simp [changeLast, shape]

theorem endName_noteArgument (r : ChainReader) (c : Char) :
    (r.noteArgument c).endName = r.endName.noteArgument c := by
  unfold endName
  split
  · next empty => rw [if_pos (by simpa [noteArgument] using empty)]
  · next name => rw [if_neg (by simpa [noteArgument] using name)]; rfl

theorem segments_changeLast_noteArgument (r : ChainReader) (c : Char) (change : Segment → Segment) :
    ((r.noteArgument c).changeLast change).segments = (r.changeLast change).segments := by
  simp only [changeLast, noteArgument]
  split <;> rfl

/-- What one character makes of the segments, of the name being read and of the call being read. -/
inductive Progress (r : ChainReader) (c : Char) (r' : ChainReader) : Prop
  /-- None of them, but for what stands inside an argument list. -/
  | kept : r'.segments = r.segments → r'.current = r.current → (r'.call.isSome = true → r.call.isSome = true) →
      Progress r c r'
  /-- One more character of the name. -/
  | letter : c ≠ ']' → r'.segments = r.segments → r'.current = c :: r.current →
      (r'.call.isSome = true → r.call.isSome = true) → Progress r c r'
  /-- The end of the name. -/
  | ended : r'.segments = r.endName.segments → r'.current = r.endName.current → Progress r c r'
  /-- The end of the name, with an index behind it. -/
  | indexed (change : Segment → Segment) : r'.segments = (r.endName.changeLast change).segments →
      r'.current = r.endName.current → (∀ seg, (change seg).name = seg.name) → Progress r c r'
  /-- The end of a call. -/
  | called (change : Segment → Segment) : r'.segments = (r.changeLast change).segments →
      r'.current = r.current → (∀ seg, (change seg).name = seg.name) → r.call.isSome = true → Progress r c r'

theorem isSome_call_noteArgument (r : ChainReader) (c : Char) :
    (r.noteArgument c).call.isSome = r.call.isSome := Option.isSome_map

theorem progress_step (r : ChainReader) (c : Char) : Progress r c (r.step c) := by
  have noted : (r.noteArgument c).call.isSome = true → r.call.isSome = true :=
    fun called => isSome_call_noteArgument r c ▸ called
  unfold step
  split
  · dsimp only
    split
    · exact .kept rfl rfl noted
    · split
      · exact .kept rfl rfl noted
      · exact .kept rfl rfl noted
  · split
    · rw [endName_noteArgument]
      exact .ended rfl rfl
    · split
      · split
        · exact .ended rfl rfl
        · exact .kept rfl rfl noted
      · split
        · split
          · next call _ isCall => exact .called _ rfl (current_changeLast ..) (fun _ => rfl) (by simp [isCall])
          · exact .kept rfl rfl noted
        · split
          · dsimp only
            split
            · rw [endName_noteArgument]
              exact .indexed _ (segments_changeLast_noteArgument ..) (current_changeLast ..) fun _ => rfl
            · exact .kept rfl rfl noted
          · split
            · exact .kept rfl rfl noted
            · next open_ =>
              split
              · next call _ isCall =>
                split
                · exact .kept rfl rfl fun _ => by simp [isCall]
                · exact .kept rfl rfl noted
              · dsimp only
                split
                · rw [endName_noteArgument]
                  exact .ended rfl rfl
                · split
                  · exact .kept rfl rfl noted
                  · exact .letter open_ rfl rfl noted
              · exact .kept rfl rfl noted

/-- Something has been read, and a call only behind a segment. -/
structure Underway (r : ChainReader) : Prop where
  begun : r.segments ≠ [] ∨ r.current ≠ []
  called : r.call.isSome = true → r.segments ≠ []

theorem Underway.segments_endName (underway : Underway r) : r.endName.segments ≠ [] := by
  unfold endName
  split
  · next empty => exact underway.begun.resolve_right (by simpa using empty)
  · exact List.cons_ne_nil _ _

theorem Underway.of_segments (read : r.segments ≠ []) : Underway r := ⟨.inl read, fun _ => read⟩

@[simp] theorem angles_behind : (r.behind first).angles = r.angles := rfl
@[simp] theorem depth_behind : (r.behind first).depth = r.depth := rfl
@[simp] theorem call_behind : (r.behind first).call = r.call := rfl

theorem noteArgument_behind (c : Char) : (r.behind first).noteArgument c = (r.noteArgument c).behind first := rfl

/-- One more segment in front makes no difference to reading, once something has been read behind it. -/
theorem step_behind (underway : Underway r) (c : Char) :
    (r.behind first).step c = (r.step c).behind first := by
  unfold step
  simp only [angles_behind, depth_behind, call_behind, noteArgument_behind, endName_behind]
  split
  · split
    · rfl
    · split <;> rfl
  · split
    · rfl
    · split
      · split
        · rfl
        · rfl
      · split
        · split
          · next call _ open_ =>
            rw [endCall_behind (underway.called (by simp [open_]))]
            rfl
          · rfl
        · split
          · split
            · rw [endName_noteArgument, changeLast_behind (r := r.endName.noteArgument c) underway.segments_endName]
              rfl
            · rfl
          · split
            · rfl
            · split
              · split <;> rfl
              · split
                · rfl
                · split <;> rfl
              · rfl

theorem Underway.step (underway : Underway r) (c : Char) : Underway (r.step c) := by
  cases progress_step r c with
  | kept segments current call =>
    exact ⟨by rw [segments, current]; exact underway.begun, fun called => segments ▸ underway.called (call called)⟩
  | letter _ segments current call =>
    exact ⟨.inr (current ▸ List.cons_ne_nil _ _), fun called => segments ▸ underway.called (call called)⟩
  | ended segments => exact .of_segments (segments ▸ underway.segments_endName)
  | indexed change segments => exact .of_segments (segments ▸ segments_changeLast underway.segments_endName change)
  | called change segments _ _ isCall =>
    exact .of_segments (segments ▸ segments_changeLast (underway.called isCall) change)

theorem Underway.foldl_behind (underway : Underway r) (first : Segment) (cs : List Char) :
    cs.foldl ChainReader.step (r.behind first) = (cs.foldl ChainReader.step r).behind first ∧
      Underway (cs.foldl ChainReader.step r) := by
  induction cs generalizing r with
  | nil => exact ⟨rfl, underway⟩
  | cons c cs ih =>
    rw [List.foldl_cons, List.foldl_cons, step_behind underway]
    exact ih (underway.step c)

end ChainReader

/-- A character that begins a name. -/
def beginsName (c : Char) : Bool := isIdentifierChar c && !isBlank c

theorem isNameLetter_of_beginsName {c : Char} (begins : beginsName c = true) : isNameLetter c = true := by
  obtain ⟨letter, visible⟩ := Bool.and_eq_true_iff.mp begins
  have unmarked : c ∉ ['.', '(', ')', '[', ']', '<', '>'] := by
    intro mark
    have noLetter : ['.', '(', ')', '[', ']', '<', '>'].all (fun d => !isIdentifierChar d) = true := by decide
    have other := List.all_eq_true.mp noLetter c mark
    simp [letter] at other
  exact Bool.and_eq_true_iff.mpr ⟨visible, by simpa using unmarked⟩

theorem step_of_beginsName {c : Char} (begins : beginsName c = true) {segments : List Segment} :
    ChainReader.step { segments } c = { segments, current := [c] } :=
  ChainReader.step_letter (isNameLetter_of_beginsName begins) segments []

namespace ChainReader

/-- No name that has been read holds a closing square bracket. -/
structure Unbracketed (r : ChainReader) : Prop where
  current : ']' ∉ r.current
  names : ∀ seg ∈ r.segments, ']' ∉ seg.name.toList

theorem Unbracketed.endName {r : ChainReader} (bare : Unbracketed r) : Unbracketed r.endName := by
  unfold ChainReader.endName
  split
  · exact bare
  · refine ⟨by simp, List.forall_mem_cons.mpr ⟨?_, bare.names⟩⟩
    simpa using bare.current

theorem Unbracketed.changeLast {r : ChainReader} (bare : Unbracketed r) {change : Segment → Segment}
    (keeps : ∀ seg, (change seg).name = seg.name) : Unbracketed (r.changeLast change) := by
  unfold ChainReader.changeLast
  split
  · exact bare
  · next last earlier shape =>
    obtain ⟨here, others⟩ := List.forall_mem_cons.mp (shape ▸ bare.names)
    exact ⟨bare.current, List.forall_mem_cons.mpr ⟨keeps last ▸ here, others⟩⟩

theorem Unbracketed.step {r : ChainReader} (bare : Unbracketed r) (c : Char) : Unbracketed (r.step c) := by
  cases progress_step r c with
  | kept segments current => exact ⟨current ▸ bare.current, segments ▸ bare.names⟩
  | letter other segments current =>
    refine ⟨fun member => ?_, segments ▸ bare.names⟩
    rcases List.mem_cons.mp (current ▸ member) with same | earlier
    · exact other same.symm
    · exact bare.current earlier
  | ended segments current => exact ⟨current ▸ bare.endName.current, segments ▸ bare.endName.names⟩
  | indexed change segments current keeps =>
    exact ⟨current ▸ bare.endName.current, segments ▸ (bare.endName.changeLast keeps).names⟩
  | called change segments current keeps =>
    exact ⟨current ▸ bare.current, segments ▸ (bare.changeLast keeps).names⟩

theorem Unbracketed.foldl {r : ChainReader} (bare : Unbracketed r) (cs : List Char) :
    Unbracketed (cs.foldl ChainReader.step r) := by
  induction cs generalizing r with
  | nil => exact bare
  | cons c cs ih => exact ih (bare.step c)

end ChainReader

theorem not_mem_name_of_mem_segmentsOf {cs : List Char} {seg : Segment} (member : seg ∈ segmentsOf cs) :
    ']' ∉ seg.name.toList :=
  ((ChainReader.Unbracketed.foldl ⟨by simp, by simp⟩ cs).endName).names seg (List.mem_reverse.mp member)

/-- A name and a dot in front of a chain are one more segment, when the chain begins with a name. -/
theorem segmentsOf_dotted {word : List Char} (rest : List Char) {c : Char}
    (reads : (word ++ ['.']).foldl ChainReader.step {} = { segments := [{ name := String.ofList word }] })
    (begins : beginsName c = true) :
    segmentsOf (word ++ '.' :: c :: rest) = { name := String.ofList word } :: segmentsOf (c :: rest) ∧
      segmentsOf (c :: rest) ≠ [] := by
  have started : ChainReader.step {} c = { current := [c] } := step_of_beginsName begins
  have underway : ChainReader.Underway { current := [c] } := ⟨.inr (List.cons_ne_nil _ _), by simp⟩
  obtain ⟨same, further⟩ := underway.foldl_behind { name := String.ofList word } rest
  have split : word ++ '.' :: c :: rest = (word ++ ['.']) ++ c :: rest := by simp
  constructor
  · rw [segmentsOf, segmentsOf, split, List.foldl_append, reads, List.foldl_cons, List.foldl_cons,
      step_of_beginsName begins, started]
    have behind : ({ segments := [{ name := String.ofList word }], current := [c] } : ChainReader) =
        ChainReader.behind { name := String.ofList word } { current := [c] } := rfl
    rw [behind, same, ChainReader.endName_behind]
    simp [ChainReader.behind]
  · rw [segmentsOf, List.foldl_cons, started]
    simpa using further.segments_endName

end Typeahead.Source
