import Typeahead.Server.State

namespace Typeahead.Server

/-- What happens to the server, one thing at a time. -/
inductive Event where
  | started (hasRoot : Bool) (options : Option Json)
  | configured (message : Json)
  /-- One of the rebuilds under way ends. -/
  | rebuilt (index : Nat)
  | opened (uri name text : String) (version : Nat)
  | changed (uri : String) (version : Nat) (texts : List String)
  | closed (uri : String)
  | asked (uri : String) (position : Text.Position)
  | stopped

namespace State

/-- The server after an event; a request that is refused changes nothing. -/
def step (s : State) : Event → State
  | .started hasRoot options => (s.start hasRoot options).toOption.getD s
  | .configured message => s.configure message
  | .rebuilt index => s.finishRebuild index
  | .opened uri name text version => s.openDocument uri name text version
  | .changed uri version texts => s.changeDocument uri version texts
  | .closed uri => s.closeDocument uri
  | .asked uri position => ((s.beginCompletion uri position).toOption.map (·.2)).getD s
  | .stopped => s.shutdown.toOption.getD s

/-- The settings that the server takes over with an event. -/
def accepts? (s : State) : Event → Option Settings
  | .started _ options => if s.phase = .uninitialized then options.bind Settings.ofMessage? else none
  | .configured message => if s.phase = .running then Settings.ofMessage? message else none
  | _ => none

/-- An event begins a rebuild: the first request always, later settings when they are accepted. -/
def begins (s : State) : Event → Bool
  | .started _ _ => s.phase == .uninitialized
  | e => (s.accepts? e).isSome

theorem begins_of_accepts? {s : State} {e : Event} {settings : Settings}
    (accepted : s.accepts? e = some settings) : s.begins e = true := by
  cases e with
  | started hasRoot options =>
    simp only [accepts?] at accepted
    split at accepted
    · next first => simp [begins, first]
    · simp at accepted
  | _ => simp [begins, accepted]

/-- What an event leaves of everything that rebuilds depend on. -/
structure Unbuilt (s after : State) (e : Event) : Prop where
  files : after.files = s.files
  catalog : after.catalog = s.catalog
  settings : after.settings = (s.accepts? e).getD s.settings
  rebuilds : after.rebuilds = if s.begins e then s.rebuilds ++ [after.settings] else s.rebuilds

/-- An event that concerns the documents or the phase alone. -/
theorem unbuilt_of_quiet {s : State} {e : Event}
    (quiet : ∃ phase documents, s.step e = { s with phase, documents }) (idle : s.accepts? e = none)
    (unbegun : s.begins e = false) : Unbuilt s (s.step e) e := by
  obtain ⟨phase, documents, after⟩ := quiet
  rw [after]
  exact ⟨rfl, rfl, by rw [idle, Option.getD_none], by simp [unbegun]⟩

theorem unbuilt_started (s : State) (hasRoot : Bool) (options : Option Json) :
    Unbuilt s (s.step (.started hasRoot options)) (.started hasRoot options) := by
  by_cases first : s.phase = .uninitialized
  · have accepted : options.bind s.accept? =
        (options.bind Settings.ofMessage?).map fun settings => { s with settings } := by
      cases options <;> rfl
    simp only [step, start, first, if_true, accepted]
    cases read : options.bind Settings.ofMessage? <;>
      exact ⟨rfl, rfl, by simp [accepts?, first, read, startRebuild, Except.toOption],
        by simp [begins, first, startRebuild, Except.toOption]⟩
  · have refused : s.step (.started hasRoot options) = s := by
      simp [step, start, first, Except.toOption]
    exact unbuilt_of_quiet ⟨s.phase, s.documents, refused⟩ (by simp [accepts?, first])
      (by simp [begins, first])

theorem unbuilt_configured (s : State) (message : Json) :
    Unbuilt s (s.step (.configured message)) (.configured message) := by
  by_cases running : s.phase = .running
  · cases read : Settings.ofMessage? message with
    | none =>
      have unchanged : s.step (.configured message) = s := by
        simp [step, configure, whileRunning, running, accept?, read]
      exact unbuilt_of_quiet ⟨s.phase, s.documents, unchanged⟩ (by simp [accepts?, running, read])
        (by simp [begins, accepts?, running, read])
    | some settings =>
      have taken : s.step (.configured message) = startRebuild { s with settings } := by
        simp [step, configure, whileRunning, running, accept?, read]
      rw [taken]
      exact ⟨rfl, rfl, by simp [accepts?, running, read, startRebuild],
        by simp [begins, accepts?, running, read, startRebuild]⟩
  · have unchanged : s.step (.configured message) = s := by
      simp [step, configure, whileRunning, running]
    exact unbuilt_of_quiet ⟨s.phase, s.documents, unchanged⟩ (by simp [accepts?, running])
      (by simp [begins, accepts?, running])

/-- Messages about documents touch the documents alone. -/
theorem about_eq (s : State) (uri : String) {change : Address → State → State}
    (documentsOnly : ∀ a, ∃ documents, change a s = { s with documents }) :
    ∃ phase documents, s.about uri change = { s with phase, documents } := by
  unfold about
  split
  · next a _ =>
    unfold whileRunning
    split
    · obtain ⟨documents, changed⟩ := documentsOnly a
      exact ⟨s.phase, documents, changed⟩
    · exact ⟨s.phase, s.documents, rfl⟩
  · exact ⟨s.phase, s.documents, rfl⟩

theorem openDocument_eq (s : State) (uri name text : String) (version : Nat) :
    ∃ phase documents, s.openDocument uri name text version = { s with phase, documents } := by
  refine about_eq s uri fun a => ?_
  cases languageFor? a name with
  | some languageId => exact ⟨_, rfl⟩
  | none => exact ⟨s.documents, rfl⟩

theorem changeDocument_eq (s : State) (uri : String) (version : Nat) (texts : List String) :
    ∃ phase documents, s.changeDocument uri version texts = { s with phase, documents } := by
  refine about_eq s uri fun a => ?_
  cases texts.getLast? with
  | some text =>
    show ∃ documents, (if version < 0x80000000 then _ else s) = _
    by_cases short : version < 0x80000000
    · rw [if_pos short]
      exact ⟨_, rfl⟩
    · rw [if_neg short]
      exact ⟨s.documents, rfl⟩
  | none => exact ⟨s.documents, rfl⟩

theorem closeDocument_eq (s : State) (uri : String) :
    ∃ phase documents, s.closeDocument uri = { s with phase, documents } :=
  about_eq s uri fun _ => ⟨_, rfl⟩

/-- The start of a request counts it in its document and changes nothing else. -/
theorem step_asked (s : State) (uri : String) (position : Text.Position) :
    ∃ phase documents, s.step (.asked uri position) = { s with phase, documents } := by
  show ∃ phase documents, ((s.beginCompletion uri position).toOption.map (·.2)).getD s = _
  unfold beginCompletion
  cases s.admits with
  | error e => exact ⟨s.phase, s.documents, rfl⟩
  | ok _ =>
    cases readTarget uri position with
    | error e => exact ⟨s.phase, s.documents, rfl⟩
    | ok address => exact ⟨s.phase, _, rfl⟩

theorem step_stopped (s : State) : ∃ phase documents, s.step .stopped = { s with phase, documents } := by
  show ∃ phase documents, s.shutdown.toOption.getD s = _
  unfold shutdown
  cases s.admits with
  | error e => exact ⟨s.phase, s.documents, rfl⟩
  | ok _ => exact ⟨.shutDown, s.documents, rfl⟩

/-- Every event but the end of a rebuild. -/
theorem step_unbuilt (s : State) {e : Event} (other : ∀ index, e ≠ .rebuilt index) :
    Unbuilt s (s.step e) e := by
  cases e with
  | started hasRoot options => exact unbuilt_started s hasRoot options
  | configured message => exact unbuilt_configured s message
  | rebuilt index => exact absurd rfl (other index)
  | opened uri name text version => exact unbuilt_of_quiet (openDocument_eq s uri name text version) rfl rfl
  | changed uri version texts => exact unbuilt_of_quiet (changeDocument_eq s uri version texts) rfl rfl
  | closed uri => exact unbuilt_of_quiet (closeDocument_eq s uri) rfl rfl
  | asked uri position => exact unbuilt_of_quiet (step_asked s uri position) rfl rfl
  | stopped => exact unbuilt_of_quiet (step_stopped s) rfl rfl

theorem step_rebuilt_of_none {s : State} {index : Nat} (missing : s.rebuilds[index]? = none) :
    s.step (.rebuilt index) = s := by
  simp [step, finishRebuild, missing]

theorem step_rebuilt_of_some {s : State} {index : Nat} {settings : Settings}
    (waiting : s.rebuilds[index]? = some settings) :
    s.step (.rebuilt index) =
      { s with catalog := settings.catalog s.files, rebuilds := s.rebuilds.eraseIdx index } := by
  simp [step, finishRebuild, waiting]

end State

end Typeahead.Server
