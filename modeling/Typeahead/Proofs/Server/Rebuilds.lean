import Typeahead.Proofs.Server.Event

namespace Typeahead.Server

/-- A run of the server with what the run has brought: rebuilds are numbered as they begin. -/
structure History where
  state : State
  /-- The settings that each rebuild began with. -/
  begun : List Settings := []
  /-- The numbers of the rebuilds under way, in the order of the server's own list. -/
  pending : List Nat := []
  /-- The number of the rebuild that ended last. -/
  ended : Option Nat := none
  /-- The settings accepted last. -/
  accepted : Option Settings := none

namespace History

def step (h : History) (e : Event) : History where
  state := h.state.step e
  begun := if h.state.begins e then h.begun ++ [(h.state.step e).settings] else h.begun
  pending :=
    match e with
    | .rebuilt index => h.pending.eraseIdx index
    | e => if h.state.begins e then h.pending ++ [h.begun.length] else h.pending
  ended :=
    match e with
    | .rebuilt index => h.pending[index]?.or h.ended
    | _ => h.ended
  accepted := (h.state.accepts? e).or h.accepted

/-- What a new server with some files comes to. -/
def run (files : FileTree) (events : List Event) : History :=
  events.foldl step { state := { files } }

/-- What holds at every point of a run. -/
structure Sound (files : FileTree) (h : History) : Prop where
  same_files : h.state.files = files
  pending : h.state.rebuilds.map some = h.pending.map (h.begun[·]?)
  latest : ∀ settings, h.accepted = some settings →
    h.state.settings = settings ∧ h.begun.getLast? = some settings
  built : ∀ number, h.ended = some number →
    ∃ last, h.begun[number]? = some last ∧ h.state.catalog = last.catalog files
  busy : h.begun ≠ [] → h.pending ≠ [] ∨ h.ended.isSome

theorem sound_start (files : FileTree) : Sound files { state := { files } } where
  same_files := rfl
  pending := rfl
  latest := by simp
  built := by simp
  busy := by simp

variable {files : FileTree} {h : History}

theorem Sound.lt_of_mem_pending (sound : Sound files h) {number : Nat} (waiting : number ∈ h.pending) :
    number < h.begun.length := by
  have known : h.begun[number]? ∈ h.state.rebuilds.map some := by
    rw [sound.pending]
    exact List.mem_map_of_mem waiting
  obtain ⟨settings, -, at_number⟩ := List.mem_map.mp known
  exact (List.getElem?_eq_some_iff.mp at_number.symm).1

theorem Sound.step_rebuilt (sound : Sound files h) (index : Nat) : Sound files (h.step (.rebuilt index)) := by
  have aligned : (h.state.rebuilds[index]?).map some = (h.pending[index]?).map (h.begun[·]?) := by
    rw [← List.getElem?_map, ← List.getElem?_map, sound.pending]
  cases waiting : h.state.rebuilds[index]? with
  | none =>
    have missing : h.pending[index]? = none := by
      cases at_index : h.pending[index]? with
      | none => rfl
      | some number => simp [waiting, at_index] at aligned
    have unchanged : h.step (.rebuilt index) = h := by
      simp [step, State.step_rebuilt_of_none waiting, State.begins, State.accepts?, missing,
        List.eraseIdx_of_length_le (List.getElem?_eq_none_iff.mp missing)]
    rw [unchanged]
    exact sound
  | some settings =>
    obtain ⟨number, at_index, begun⟩ :
        ∃ number, h.pending[index]? = some number ∧ h.begun[number]? = some settings := by
      cases at_index : h.pending[index]? with
      | none => simp [waiting, at_index] at aligned
      | some number => exact ⟨number, rfl, by simpa [waiting, at_index, eq_comm] using aligned⟩
    have ended : (h.step (.rebuilt index)).ended = some number := by simp [step, at_index]
    refine ⟨?_, ?_, ?_, ?_, ?_⟩
    · simpa [step, State.step_rebuilt_of_some waiting] using sound.same_files
    · show ((h.state.step (.rebuilt index)).rebuilds).map some = (h.pending.eraseIdx index).map (h.begun[·]?)
      rw [State.step_rebuilt_of_some waiting]
      simp only [List.eraseIdx_eq_take_drop_succ, List.map_append, List.map_take, List.map_drop, sound.pending]
    · intro latest accepted
      have before := sound.latest latest accepted
      simpa [step, State.step_rebuilt_of_some waiting, State.begins, State.accepts?] using before
    · intro last is_last
      obtain rfl : number = last := by simpa [ended] using is_last
      refine ⟨settings, begun, ?_⟩
      simp [step, State.step_rebuilt_of_some waiting, sound.same_files]
    · intro _
      exact .inr (by simp [ended])

theorem step_pending {e : Event} (other : ∀ index, e ≠ .rebuilt index) :
    (h.step e).pending = if h.state.begins e then h.pending ++ [h.begun.length] else h.pending := by
  cases e with
  | rebuilt index => exact absurd rfl (other index)
  | _ => rfl

theorem step_ended {e : Event} (other : ∀ index, e ≠ .rebuilt index) : (h.step e).ended = h.ended := by
  cases e with
  | rebuilt index => exact absurd rfl (other index)
  | _ => rfl

/-- The next number is free: what is under way began earlier. -/
theorem Sound.pending_append (sound : Sound files h) (settings : Settings) :
    (h.state.rebuilds ++ [settings]).map some =
      (h.pending ++ [h.begun.length]).map ((h.begun ++ [settings])[·]?) := by
  have earlier : h.pending.map ((h.begun ++ [settings])[·]?) = h.pending.map (h.begun[·]?) :=
    List.map_congr_left fun number waiting => List.getElem?_append_left (sound.lt_of_mem_pending waiting)
  rw [List.map_append, List.map_append, earlier, ← sound.pending]
  simp

theorem Sound.step_unbuilt (sound : Sound files h) {e : Event} (other : ∀ index, e ≠ .rebuilt index) :
    Sound files (h.step e) := by
  have event := h.state.step_unbuilt other
  have pending := step_pending (h := h) other
  have ended := step_ended (h := h) other
  have same_files : (h.step e).state.files = files := event.files.trans sound.same_files
  by_cases begins : h.state.begins e = true
  · have begun : (h.step e).begun = h.begun ++ [(h.state.step e).settings] := if_pos begins
    rw [if_pos begins] at pending
    refine ⟨same_files, ?_, ?_, ?_, ?_⟩
    · show (h.state.step e).rebuilds.map some = _
      rw [event.rebuilds, if_pos begins, begun, pending]
      exact sound.pending_append _
    · intro settings accepted
      have taken : (h.state.step e).settings = settings := by
        rw [event.settings]
        cases now : h.state.accepts? e with
        | some new => simpa [step, now] using accepted
        | none => exact (sound.latest settings (by simpa [step, now] using accepted)).1
      exact ⟨taken, by rw [begun, List.getLast?_concat, taken]⟩
    · intro number is_last
      obtain ⟨last, at_number, catalog⟩ := sound.built number (ended ▸ is_last)
      have earlier : number < h.begun.length := (List.getElem?_eq_some_iff.mp at_number).1
      exact ⟨last, by rw [begun, List.getElem?_append_left earlier, at_number], event.catalog.trans catalog⟩
    · intro _
      exact .inl (by simp [pending])
  · have begun : (h.step e).begun = h.begun := if_neg begins
    have unaccepted : h.state.accepts? e = none := by
      cases now : h.state.accepts? e with
      | none => rfl
      | some new => exact absurd (State.begins_of_accepts? now) begins
    rw [if_neg begins] at pending
    refine ⟨same_files, ?_, ?_, ?_, ?_⟩
    · show (h.state.step e).rebuilds.map some = _
      rw [event.rebuilds, if_neg begins, begun, pending]
      exact sound.pending
    · intro settings accepted
      show (h.state.step e).settings = settings ∧ _
      rw [event.settings, unaccepted, begun]
      exact sound.latest settings (by simpa [step, unaccepted] using accepted)
    · intro number is_last
      obtain ⟨last, at_number, catalog⟩ := sound.built number (ended ▸ is_last)
      exact ⟨last, begun ▸ at_number, event.catalog.trans catalog⟩
    · intro some_begun
      rw [pending, ended]
      exact sound.busy (begun ▸ some_begun)

theorem Sound.step (sound : Sound files h) (e : Event) : Sound files (h.step e) := by
  cases e with
  | rebuilt index => exact sound.step_rebuilt index
  | _ => exact sound.step_unbuilt (by simp)

theorem sound_run (files : FileTree) (events : List Event) : Sound files (run files events) := by
  have steps : ∀ (events : List Event) (h : History), Sound files h →
      Sound files (events.foldl History.step h) := by
    intro events
    induction events with
    | nil => exact fun _ sound => sound
    | cons e events ih => exact fun h sound => ih (h.step e) (sound.step e)
  exact steps events _ (sound_start files)

theorem Sound.idle (sound : Sound files h) (settled : h.state.rebuilds = []) : h.pending = [] := by
  have pending := sound.pending
  rw [settled] at pending
  exact List.map_eq_nil_iff.mp pending.symm

/-- With nothing under way and something begun, the catalog is that of the rebuild that ended last. -/
theorem Sound.settled (sound : Sound files h) (settled : h.state.rebuilds = []) (begun : h.begun ≠ []) :
    ∃ number last, h.ended = some number ∧ h.begun[number]? = some last ∧
      h.state.catalog = last.catalog files := by
  have idle := sound.idle settled
  rcases sound.busy begun with waiting | some_ended
  · exact absurd idle waiting
  · obtain ⟨number, ended⟩ := Option.isSome_iff_exists.mp some_ended
    obtain ⟨last, at_number, catalog⟩ := sound.built number ended
    exact ⟨number, last, ended, at_number, catalog⟩

theorem Sound.eq_latest (sound : Sound files h) {latest last : Settings} (accepted : h.accepted = some latest)
    {number : Nat} (at_number : h.begun[number]? = some last) (newest : number + 1 = h.begun.length) :
    last = latest := by
  have is_latest := (sound.latest latest accepted).2
  rw [List.getLast?_eq_getElem?, ← newest, Nat.add_sub_cancel, at_number] at is_latest
  exact Option.some.inj is_latest

theorem Sound.begun_ne_nil (sound : Sound files h) {latest : Settings} (accepted : h.accepted = some latest) :
    h.begun ≠ [] := by
  intro unbegun
  have is_latest := (sound.latest latest accepted).2
  simp [unbegun] at is_latest

/-- When settings have been accepted and no rebuild is under way, the catalog is that of the rebuild that
ended last, whichever began last. -/
theorem catalog_of_settled_run (files : FileTree) (events : List Event) {latest : Settings}
    (accepted : (run files events).accepted = some latest) (settled : (run files events).state.rebuilds = []) :
    ∃ number last, (run files events).ended = some number ∧ (run files events).begun[number]? = some last ∧
      (run files events).state.catalog = last.catalog files ∧
      ((run files events).state.catalog = latest.catalog files ↔
        last.catalog files = latest.catalog files) ∧
      (number + 1 = (run files events).begun.length → last = latest) := by
  have sound := sound_run files events
  obtain ⟨number, last, ended, at_number, catalog⟩ := sound.settled settled (sound.begun_ne_nil accepted)
  refine ⟨number, last, ended, at_number, catalog, ?_, sound.eq_latest accepted at_number⟩
  rw [catalog]

def withoutCore : Json := .object [("includeCorlib", .bool false)]

def withDefaults : Json := .object []

/-- Two changes of the settings whose rebuilds end in their order. -/
def orderlyEvents : List Event :=
  [.started false none, .rebuilt 0, .configured withoutCore, .configured withDefaults, .rebuilt 0, .rebuilt 0]

theorem catalog_of_settled_run_orderly :
    (run { root := "/" } orderlyEvents).accepted = some {} ∧
      (run { root := "/" } orderlyEvents).state.rebuilds = [] ∧
      ∃ number, ∃ last : Settings, (run { root := "/" } orderlyEvents).ended = some number ∧
        (run { root := "/" } orderlyEvents).state.catalog = last.catalog { root := "/" } := by
  have accepted : (run { root := "/" } orderlyEvents).accepted = some {} := by decide +kernel
  have settled : (run { root := "/" } orderlyEvents).state.rebuilds = [] := by decide +kernel
  obtain ⟨number, last, ended, -, catalog, -, -⟩ :=
    catalog_of_settled_run { root := "/" } orderlyEvents accepted settled
  exact ⟨accepted, settled, number, last, ended, catalog⟩

/-- Two changes of the settings whose rebuilds end in the other order: the core library is back in the
settings and missing in the catalog. -/
theorem settled_run_keeps_outdated_catalog :
    let events : List Event :=
      [.started false none, .rebuilt 0, .configured withoutCore, .configured withDefaults, .rebuilt 1, .rebuilt 0]
    let h := run { root := "/" } events
    h.accepted = some {} ∧ h.state.rebuilds = [] ∧ (h.state.catalog.findType? "System.String").isSome = false ∧
      ((({} : Settings).catalog { root := "/" }).findType? "System.String").isSome = true ∧
      h.state.catalog ≠ ({} : Settings).catalog { root := "/" } := by
  intro events h
  have missing : (h.state.catalog.findType? "System.String").isSome = false := by decide +kernel
  have present : ((({} : Settings).catalog { root := "/" }).findType? "System.String").isSome = true := by
    decide +kernel
  refine ⟨by decide +kernel, by decide +kernel, missing, present, ?_⟩
  intro same
  rw [same, present] at missing
  exact absurd missing (by decide)

/-- The number of the rebuild that ends next when rebuilds end in their order. -/
def next (h : History) : Nat := (h.ended.map (· + 1)).getD 0

/-- Every rebuild that began before one that has ended has ended too. -/
structure Orderly (h : History) : Prop where
  next_le : h.next ≤ h.begun.length
  pending : h.pending = List.range' h.next (h.begun.length - h.next)

theorem Orderly.step_rebuilt (orderly : Orderly h) : Orderly (h.step (.rebuilt 0)) := by
  have begun : (h.step (.rebuilt 0)).begun = h.begun := rfl
  obtain ⟨next_le, pending⟩ := orderly
  cases waiting : h.begun.length - h.next with
  | zero =>
    rw [waiting] at pending
    have none_pending : h.pending = [] := pending
    have next : (h.step (.rebuilt 0)).next = h.next := by simp [History.next, step, none_pending]
    refine ⟨by rw [begun, next]; exact next_le, ?_⟩
    rw [begun, next, waiting]
    simp [step, none_pending]
  | succ more =>
    rw [waiting, List.range'_succ] at pending
    have next : (h.step (.rebuilt 0)).next = h.next + 1 := by
      simp [History.next, step, pending]
    refine ⟨by rw [begun, next]; omega, ?_⟩
    rw [begun, next, show h.begun.length - (h.next + 1) = more by omega]
    simp [step, pending]

theorem Orderly.step (orderly : Orderly h) {e : Event} (oldest : ∀ index, e = .rebuilt index → index = 0) :
    Orderly (h.step e) := by
  by_cases ends : ∃ index, e = .rebuilt index
  · obtain ⟨index, rfl⟩ := ends
    obtain rfl := oldest index rfl
    exact orderly.step_rebuilt
  · have other : ∀ index, e ≠ .rebuilt index := fun index same => ends ⟨index, same⟩
    have next : (h.step e).next = h.next := congrArg (fun ended => (ended.map (· + 1)).getD 0) (step_ended other)
    have pending := step_pending (h := h) other
    obtain ⟨next_le, queue⟩ := orderly
    by_cases begins : h.state.begins e = true
    · have begun : (h.step e).begun = h.begun ++ [(h.state.step e).settings] := if_pos begins
      rw [if_pos begins] at pending
      refine ⟨by rw [next, begun, List.length_append]; omega, ?_⟩
      rw [pending, next, begun, List.length_append, queue,
        show h.begun.length + [(h.state.step e).settings].length - h.next = h.begun.length - h.next + 1 by
          simp; omega, List.range'_concat]
      congr 2
      omega
    · have begun : (h.step e).begun = h.begun := if_neg begins
      rw [if_neg begins] at pending
      exact ⟨by rw [next, begun]; exact next_le, by rw [pending, next, begun, queue]⟩

theorem orderly_run (files : FileTree) (events : List Event)
    (oldest : ∀ index, Event.rebuilt index ∈ events → index = 0) : Orderly (run files events) := by
  have steps : ∀ (events : List Event) (h : History), (∀ index, Event.rebuilt index ∈ events → index = 0) →
      Orderly h → Orderly (events.foldl History.step h) := by
    intro events
    induction events with
    | nil => exact fun _ _ orderly => orderly
    | cons e events ih =>
      intro h oldest orderly
      refine ih (h.step e) (fun index later => oldest index (List.mem_cons_of_mem _ later)) (orderly.step ?_)
      rintro index rfl
      exact oldest index List.mem_cons_self
  exact steps events _ oldest ⟨Nat.le_refl _, rfl⟩

/-- Rebuilds that end in the order of their beginning leave the catalog of the settings accepted last. -/
theorem catalog_of_orderly_run (files : FileTree) (events : List Event) {latest : Settings}
    (oldest : ∀ index, Event.rebuilt index ∈ events → index = 0)
    (accepted : (run files events).accepted = some latest) (settled : (run files events).state.rebuilds = []) :
    (run files events).state.catalog = latest.catalog files := by
  have sound := sound_run files events
  obtain ⟨number, last, ended, at_number, catalog⟩ := sound.settled settled (sound.begun_ne_nil accepted)
  obtain ⟨next_le, queue⟩ := orderly_run files events oldest
  have next : (run files events).next = number + 1 := by simp [History.next, ended]
  have idle := sound.idle settled
  have newest : number + 1 = (run files events).begun.length := by
    rw [idle, eq_comm, List.range'_eq_nil_iff] at queue
    omega
  rw [catalog, sound.eq_latest accepted at_number newest]

end History

end Typeahead.Server
