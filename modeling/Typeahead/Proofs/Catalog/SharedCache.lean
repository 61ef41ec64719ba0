import Mathlib.Data.List.Nodup
import Mathlib.Data.Set.Card
import Mathlib.Logic.Relation
import Typeahead.Catalog.Demand

namespace Typeahead.Catalog

theorem Cache.find?_settle (cache : Cache) (name : String) (loaded : Option Assembly) :
    (cache.settle name loaded).2.find? name = some (cache.settle name loaded).1 := by
  unfold Cache.settle
  split
  · next standing found => exact found
  · next absent => simp only [Cache.find?] at absent ⊢; simp [List.lookup_append, absent]

theorem Cache.find?_settle_of_ne {cache : Cache} {name other : String} (loaded : Option Assembly)
    (different : other ≠ name) : (cache.settle name loaded).2.find? other = cache.find? other := by
  unfold Cache.settle
  split
  · rfl
  · have unequal : (other == name) = false := by simpa using different
    simp [Cache.find?, List.lookup_append, List.lookup_cons, unequal]

theorem Cache.mem_names_iff {cache : Cache} {name : String} :
    name ∈ cache.names ↔ ∃ entry, cache.find? name = some entry := by
  rw [← Option.isSome_iff_exists, Cache.find?, List.lookup_isSome_iff, Cache.names, List.mem_map]
  simp only [beq_iff_eq, eq_comm (b := name)]

theorem Cache.nodup_names_settle {cache : Cache} {name : String} {loaded : Option Assembly}
    (distinct : cache.names.Nodup) : (cache.settle name loaded).2.names.Nodup := by
  unfold Cache.settle
  split
  · exact distinct
  · next absent =>
    have fresh : name ∉ cache.names := by
      rw [Cache.mem_names_iff, absent]
      simp
    have names : Cache.names ⟨cache.entries ++ [(name, loaded)]⟩ = cache.names ++ [name] := by
      simp [Cache.names]
    rw [names]
    exact List.nodup_append.mpr ⟨distinct, List.nodup_singleton name, by
      rintro a inside b last rfl
      exact fresh (List.mem_singleton.mp last ▸ inside)⟩

/-- Under distinct names an entry of the list is the one that the look-up finds. -/
theorem Cache.find?_eq_some_iff {cache : Cache} (distinct : cache.names.Nodup) {name : String}
    {entry : Option Assembly} : cache.find? name = some entry ↔ (name, entry) ∈ cache.entries := by
  rw [Cache.find?, List.lookup_eq_some_iff]
  constructor
  · rintro ⟨before, after, entries, -⟩
    simp [entries]
  · intro member
    obtain ⟨before, after, entries⟩ := List.append_of_mem member
    refine ⟨before, after, entries, fun other inside => ?_⟩
    rw [Cache.names, entries, List.map_append, List.map_cons] at distinct
    have different := (List.nodup_append.mp distinct).2.2 other.1 (List.mem_map_of_mem inside) name List.mem_cons_self
    simpa using different.symm

/-- The number of names whose entry is an assembly. -/
theorem Cache.encard_loaded {cache : Cache} (distinct : cache.names.Nodup) :
    Set.encard {name | ∃ a, cache.find? name = some (some a)} = cache.loadedCount := by
  have counted : ((cache.entries.filter (·.2.isSome)).map (·.1)).Nodup :=
    distinct.sublist (List.filter_sublist.map _)
  have same : {name | ∃ a, cache.find? name = some (some a)} =
      (((cache.entries.filter (·.2.isSome)).map (·.1)).toFinset : Set String) := by
    ext name
    simp [Cache.find?_eq_some_iff distinct, Option.isSome_iff_exists]
  rw [same, Set.encard_coe_eq_coe_finsetCard, List.toFinset_card_of_nodup counted, List.length_map, Cache.loadedCount]

/-- How far a call has come. -/
inductive CallPhase where
  /-- The name is still to be looked up. -/
  | looking
  /-- The name had no entry, and the loader is still to be asked. -/
  | missed
  /-- The loader has given an outcome that is still to be entered. -/
  | loaded (outcome : Option Assembly)
  | answered (entry : Option Assembly)
  deriving DecidableEq, Repr

/-- One call of the cache for a name. -/
structure CacheCall where
  name : String
  phase : CallPhase := .looking
  /-- The call has asked the loader. -/
  asked : Bool := false
  deriving DecidableEq, Repr

def CacheCall.isAnswered (call : CacheCall) : Prop := ∃ entry, call.phase = .answered entry

/-- A cache and the calls made of it so far, in the order of their beginning. -/
structure SharedCache where
  cache : Cache := {}
  calls : List CacheCall := []

namespace SharedCache

/-- What one step of a call makes of the cache and the call. The loader may end a request for a name with
any outcome that `mayLoad` allows. -/
inductive Move (mayLoad : String → Option Assembly → Prop) : Cache → CacheCall → Cache → CacheCall → Prop
  | hit {cache name asked entry} : cache.find? name = some entry →
      Move mayLoad cache ⟨name, .looking, asked⟩ cache ⟨name, .answered entry, asked⟩
  | miss {cache name asked} : cache.find? name = none →
      Move mayLoad cache ⟨name, .looking, asked⟩ cache ⟨name, .missed, asked⟩
  | load {cache name asked outcome} : mayLoad name outcome →
      Move mayLoad cache ⟨name, .missed, asked⟩ cache ⟨name, .loaded outcome, true⟩
  | settle {cache name asked outcome} :
      Move mayLoad cache ⟨name, .loaded outcome, asked⟩
        (cache.settle name outcome).2 ⟨name, .answered (cache.settle name outcome).1, asked⟩

/-- A call begins, or one of the calls that have begun goes one step further. -/
inductive Step (mayLoad : String → Option Assembly → Prop) : SharedCache → SharedCache → Prop
  | start {s : SharedCache} (name : String) : Step mayLoad s { s with calls := s.calls ++ [{ name }] }
  | move {s : SharedCache} {i : Nat} {call call' : CacheCall} {cache' : Cache} :
      s.calls[i]? = some call → Move mayLoad s.cache call cache' call' →
      Step mayLoad s ⟨cache', s.calls.set i call'⟩

/-- Every call has its answer. -/
def Idle (s : SharedCache) : Prop := ∀ call ∈ s.calls, call.isAnswered

/-- A step of callers that wait for each other: no call begins before the others have their answers. -/
def StepInTurn (mayLoad : String → Option Assembly → Prop) (s t : SharedCache) : Prop :=
  Step mayLoad s t ∧ (t.calls.length ≠ s.calls.length → s.Idle)

/-- Whether a call counts among the requests to the loader for a name. -/
def asks (name : String) (call : CacheCall) : Bool := call.asked && call.name == name

/-- How many calls have asked the loader for a name. -/
def asksFor (s : SharedCache) (name : String) : Nat := s.calls.countP (asks name)

variable {mayLoad : String → Option Assembly → Prop} {s t : SharedCache} {cache cache' : Cache}
  {call call' : CacheCall}

theorem Move.name_eq (move : Move mayLoad cache call cache' call') : call'.name = call.name := by
  cases move <;> rfl

theorem Move.retains (move : Move mayLoad cache call cache' call') {name : String} {entry : Option Assembly}
    (found : cache.find? name = some entry) : cache'.find? name = some entry := by
  cases move with
  | hit | miss | load => exact found
  | settle => exact Cache.find?_settle_of_find? found

/-- An entry is never changed and never taken back. -/
theorem Step.retains (step : Step mayLoad s t) {name : String} {entry : Option Assembly}
    (found : s.cache.find? name = some entry) : t.cache.find? name = some entry := by
  cases step with
  | start => exact found
  | move _ move => exact move.retains found

theorem retains_of_steps (steps : Relation.ReflTransGen (Step mayLoad) s t) {name : String}
    {entry : Option Assembly} (found : s.cache.find? name = some entry) : t.cache.find? name = some entry := by
  induction steps with
  | refl => exact found
  | tail _ step ih => exact step.retains ih

/-- What a call knows is so: its answer is the entry of its name, and what it is about to enter is what the
loader gave it. -/
structure Truthful (mayLoad : String → Option Assembly → Prop) (cache : Cache) (call : CacheCall) : Prop where
  answered : ∀ entry, call.phase = .answered entry → cache.find? call.name = some entry
  loaded : ∀ outcome, call.phase = .loaded outcome → mayLoad call.name outcome

/-- What holds at every point of a run. -/
structure Sound (mayLoad : String → Option Assembly → Prop) (s : SharedCache) : Prop where
  distinct : s.cache.names.Nodup
  genuine : ∀ name entry, s.cache.find? name = some entry → mayLoad name entry
  truthful : ∀ call ∈ s.calls, Truthful mayLoad s.cache call

theorem sound_start : Sound mayLoad {} where
  distinct := List.nodup_nil
  genuine := by simp [Cache.find?]
  truthful := by simp

theorem Truthful.of_retains (truthful : Truthful mayLoad cache call)
    (retains : ∀ name entry, cache.find? name = some entry → cache'.find? name = some entry) :
    Truthful mayLoad cache' call :=
  ⟨fun entry answered => retains _ _ (truthful.answered entry answered), truthful.loaded⟩

/-- The call that moves stays truthful. -/
theorem Move.truthful (move : Move mayLoad cache call cache' call') (truthful : Truthful mayLoad cache call) :
    Truthful mayLoad cache' call' := by
  cases move with
  | hit found => exact ⟨by rintro entry ⟨⟩; exact found, by simp⟩
  | miss => exact ⟨by simp, by simp⟩
  | load allowed => exact ⟨by simp, by rintro outcome ⟨⟩; exact allowed⟩
  | settle => exact ⟨by rintro entry ⟨⟩; exact Cache.find?_settle .., by simp⟩

theorem Move.genuine (move : Move mayLoad cache call cache' call') (truthful : Truthful mayLoad cache call)
    (genuine : ∀ name entry, cache.find? name = some entry → mayLoad name entry) {name : String}
    {entry : Option Assembly} (found : cache'.find? name = some entry) : mayLoad name entry := by
  cases move with
  | hit | miss | load => exact genuine name entry found
  | @settle own _ outcome =>
    by_cases same : name = own
    · subst same
      have allowed := truthful.loaded outcome rfl
      rw [Cache.find?_settle, Option.some.injEq] at found
      unfold Cache.settle at found
      split at found
      · next standing before => exact genuine name entry (found ▸ before)
      · exact found ▸ allowed
    · rw [Cache.find?_settle_of_ne outcome same] at found
      exact genuine name entry found

theorem Move.distinct (move : Move mayLoad cache call cache' call') (distinct : cache.names.Nodup) :
    cache'.names.Nodup := by
  cases move with
  | hit | miss | load => exact distinct
  | settle => exact Cache.nodup_names_settle distinct

theorem Sound.step (sound : Sound mayLoad s) (step : Step mayLoad s t) : Sound mayLoad t := by
  cases step with
  | start name =>
    refine ⟨sound.distinct, sound.genuine, fun call member => ?_⟩
    rcases List.mem_append.mp member with before | new
    · exact sound.truthful call before
    · rw [List.mem_singleton.mp new]
      exact ⟨by simp, by simp⟩
  | @move i call call' cache' at_i move =>
    have moving := sound.truthful call (List.mem_of_getElem? at_i)
    refine ⟨move.distinct sound.distinct, fun name entry => move.genuine moving sound.genuine, ?_⟩
    intro other member
    rcases List.mem_or_eq_of_mem_set member with before | rfl
    · exact (sound.truthful other before).of_retains fun name entry => move.retains
    · exact move.truthful moving

theorem Sound.steps (sound : Sound mayLoad s) (steps : Relation.ReflTransGen (Step mayLoad) s t) :
    Sound mayLoad t := by
  induction steps with
  | refl => exact sound
  | tail _ step ih => exact ih.step step

/-- Callers of one name get one answer. -/
theorem Sound.agree (sound : Sound mayLoad s) {first second : CacheCall} (one : first ∈ s.calls)
    (other : second ∈ s.calls) (same : first.name = second.name) {entry entry' : Option Assembly}
    (answer : first.phase = .answered entry) (answer' : second.phase = .answered entry') : entry = entry' := by
  have found := (sound.truthful first one).answered entry answer
  rw [same, (sound.truthful second other).answered entry' answer', Option.some.injEq] at found
  exact found.symm

/-- A call at a place is one of those before, or the one that has just begun. -/
theorem getElem?_concat {calls : List CacheCall} {fresh : CacheCall} {i : Nat}
    (at_i : (calls ++ [fresh])[i]? = some call) :
    calls[i]? = some call ∨ (i = calls.length ∧ call = fresh) := by
  rcases Nat.lt_trichotomy i calls.length with before | rfl | behind
  · exact .inl (List.getElem?_append_left before ▸ at_i)
  · exact .inr ⟨rfl, by simpa using at_i.symm⟩
  · rw [List.getElem?_eq_none (by simp; omega)] at at_i
    simp at at_i

/-- After a move a call at a place is the one that has moved, or one of the others as it was. -/
theorem getElem?_set_call {calls : List CacheCall} {i j : Nat} {other : CacheCall}
    (at_j : (calls.set i call')[j]? = some other) :
    (i = j ∧ other = call') ∨ (i ≠ j ∧ calls[j]? = some other) := by
  rw [List.getElem?_set] at at_j
  split at at_j
  · next same =>
    split at at_j
    · exact .inl ⟨same, (Option.some.inj at_j).symm⟩
    · simp at at_j
  · next different => exact .inr ⟨different, at_j⟩

/-- A name has its entry, and no call for it that began from some number on has asked the loader or will. -/
structure Settled (name : String) (since : Nat) (s : SharedCache) : Prop where
  present : ∃ entry, s.cache.find? name = some entry
  spared : ∀ i call, since ≤ i → s.calls[i]? = some call → call.name = name →
    call.asked = false ∧ (call.phase = .looking ∨ call.isAnswered)

/-- A call for a name that has its entry is answered by its next step. -/
theorem Move.spares (move : Move mayLoad cache call cache' call') {entry : Option Assembly}
    (present : cache.find? call.name = some entry) (quiet : call.phase = .looking ∨ call.isAnswered)
    (unasked : call.asked = false) : call'.asked = false ∧ call'.isAnswered := by
  cases move with
  | hit => exact ⟨unasked, _, rfl⟩
  | miss absent => simp [absent] at present
  | load =>
    rcases quiet with looking | ⟨entry, answered⟩
    · exact CallPhase.noConfusion looking
    · exact CallPhase.noConfusion answered
  | settle => exact ⟨unasked, _, rfl⟩

theorem Settled.step {name : String} {since : Nat} (settled : Settled name since s) (step : Step mayLoad s t) :
    Settled name since t := by
  obtain ⟨entry, present⟩ := settled.present
  refine ⟨⟨entry, step.retains present⟩, fun j other late at_j named => ?_⟩
  cases step with
  | start new =>
    rcases getElem?_concat at_j with before | ⟨_, rfl⟩
    · exact settled.spared j other late before named
    · exact ⟨rfl, .inl rfl⟩
  | @move i call call' cache' at_i move =>
    rcases getElem?_set_call at_j with ⟨rfl, rfl⟩ | ⟨_, before⟩
    · have own : call.name = name := move.name_eq ▸ named
      obtain ⟨unasked, quiet⟩ := settled.spared i call late at_i own
      obtain ⟨spared, answered⟩ := move.spares (own ▸ present) quiet unasked
      exact ⟨spared, .inr answered⟩
    · exact settled.spared j other late before named

theorem Settled.steps {name : String} {since : Nat} (settled : Settled name since s)
    (steps : Relation.ReflTransGen (Step mayLoad) s t) : Settled name since t := by
  induction steps with
  | refl => exact settled
  | tail _ step ih => exact ih.step step

/-- From the answer to a call on, calls for its name that begin later do not ask the loader. -/
theorem Sound.settled (sound : Sound mayLoad s) {done : CacheCall} (member : done ∈ s.calls)
    (answered : done.isAnswered) : Settled done.name s.calls.length s := by
  obtain ⟨entry, phase⟩ := answered
  refine ⟨⟨entry, (sound.truthful done member).answered entry phase⟩, fun i call late at_i _ => ?_⟩
  exact absurd (List.getElem?_eq_some_iff.mp at_i).1 (Nat.not_lt.mpr late)

/-- What holds at every point of a run in which callers wait for each other. -/
structure InTurn (s : SharedCache) : Prop where
  last : ∀ i call, s.calls[i]? = some call → ¬ call.isAnswered → i + 1 = s.calls.length
  absent : ∀ call ∈ s.calls, call.phase ≠ .looking → ¬ call.isAnswered → s.cache.find? call.name = none
  unasked : ∀ call ∈ s.calls, call.phase = .looking ∨ call.phase = .missed → call.asked = false
  once : ∀ name, s.asksFor name ≤ 1

theorem inTurn_start : InTurn {} where
  last := by simp
  absent := by simp
  unasked := by simp
  once := by simp [asksFor]

/-- Only the last call can move, so all others have their answers. -/
theorem InTurn.answered_of_ne (inTurn : InTurn s) {i j : Nat} {other : CacheCall} (at_i : s.calls[i]? = some call)
    (moving : ¬ call.isAnswered) (at_j : s.calls[j]? = some other) (different : i ≠ j) : other.isAnswered := by
  by_contra unanswered
  have lastOne := inTurn.last i call at_i moving
  have lastOther := inTurn.last j other at_j unanswered
  omega

theorem Move.not_isAnswered (move : Move mayLoad cache call cache' call') : ¬ call.isAnswered := by
  cases move <;> simp [CacheCall.isAnswered]

theorem asksFor_set {i : Nat} {name : String} (at_i : s.calls[i]? = some call)
    (same : asks name call' = asks name call) : asksFor ⟨cache', s.calls.set i call'⟩ name = s.asksFor name := by
  obtain ⟨bound, at_bound⟩ := List.getElem?_eq_some_iff.mp at_i
  show (s.calls.set i call').countP (asks name) = s.calls.countP (asks name)
  rw [List.countP_set bound, at_bound, same]
  by_cases counted : asks name call = true
  · have positive := List.countP_pos_iff.mpr ⟨call, List.mem_of_getElem? at_i, counted⟩
    rw [if_pos counted]
    omega
  · rw [if_neg counted]
    rfl

theorem asksFor_set_le {i : Nat} {name : String} (at_i : s.calls[i]? = some call) :
    asksFor ⟨cache', s.calls.set i call'⟩ name ≤ s.asksFor name + 1 := by
  obtain ⟨bound, -⟩ := List.getElem?_eq_some_iff.mp at_i
  show (s.calls.set i call').countP (asks name) ≤ s.calls.countP (asks name) + 1
  rw [List.countP_set bound]
  split <;> split <;> omega

/-- While a call is between its miss and its answer, no other call has asked for its name. -/
theorem InTurn.asksFor_eq_zero (inTurn : InTurn s) (sound : Sound mayLoad s) {i : Nat}
    (at_i : s.calls[i]? = some call) (missed : call.phase = .missed) : s.asksFor call.name = 0 := by
  have member := List.mem_of_getElem? at_i
  have moving : ¬ call.isAnswered := by simp [CacheCall.isAnswered, missed]
  have absent := inTurn.absent call member (by simp [missed]) moving
  refine List.countP_eq_zero.mpr fun other inside => ?_
  obtain ⟨j, at_j⟩ := List.getElem?_of_mem inside
  rw [asks, Bool.and_eq_true, beq_iff_eq, not_and]
  intro asked named
  by_cases same : i = j
  · subst same
    rw [at_i, Option.some.injEq] at at_j
    simp [← at_j, inTurn.unasked call member (.inr missed)] at asked
  · obtain ⟨entry, answer⟩ := inTurn.answered_of_ne at_i moving at_j same
    have present := (sound.truthful other inside).answered entry answer
    simp [named, absent] at present

theorem InTurn.once_move (inTurn : InTurn s) (sound : Sound mayLoad s) {i : Nat} (at_i : s.calls[i]? = some call)
    (move : Move mayLoad s.cache call cache' call') (name : String) :
    asksFor ⟨cache', s.calls.set i call'⟩ name ≤ 1 := by
  cases move with
  | hit | miss | settle =>
    rw [asksFor_set at_i (by rfl)]
    exact inTurn.once name
  | @load own asked outcome =>
    by_cases same : own = name
    · have before := inTurn.asksFor_eq_zero sound at_i rfl
      have after : asksFor ⟨s.cache, s.calls.set i ⟨own, .loaded outcome, true⟩⟩ own ≤ s.asksFor own + 1 :=
        asksFor_set_le at_i
      rw [before] at after
      exact same ▸ after
    · rw [asksFor_set at_i (by simp [asks, same])]
      exact inTurn.once name

theorem InTurn.start (inTurn : InTurn s) (idle : s.Idle) (name : String) :
    InTurn { s with calls := s.calls ++ [{ name }] } := by
  refine ⟨fun i call at_i moving => ?_, fun call member looked moving => ?_, fun call member phase => ?_,
    fun other => ?_⟩
  · rcases getElem?_concat at_i with before | ⟨rfl, -⟩
    · exact absurd (idle call (List.mem_of_getElem? before)) moving
    · simp
  · rcases List.mem_append.mp member with before | new
    · exact absurd (idle call before) moving
    · rw [List.mem_singleton.mp new] at looked
      exact absurd rfl looked
  · rcases List.mem_append.mp member with before | new
    · exact inTurn.unasked call before phase
    · rw [List.mem_singleton.mp new]
  · have before := inTurn.once other
    simpa [asksFor, asks, List.countP_append] using before

theorem InTurn.move (inTurn : InTurn s) (sound : Sound mayLoad s) {i : Nat} (at_i : s.calls[i]? = some call)
    (move : Move mayLoad s.cache call cache' call') : InTurn ⟨cache', s.calls.set i call'⟩ := by
  have moving := move.not_isAnswered
  refine ⟨fun j other at_j unanswered => ?_, fun other inside looked unanswered => ?_,
    fun other inside phase => ?_, inTurn.once_move sound at_i move⟩
  · rcases getElem?_set_call at_j with ⟨rfl, -⟩ | ⟨different, before⟩
    · rw [List.length_set]
      exact inTurn.last i call at_i moving
    · exact absurd (inTurn.answered_of_ne at_i moving before different) unanswered
  · obtain ⟨j, at_j⟩ := List.getElem?_of_mem inside
    rcases getElem?_set_call at_j with ⟨rfl, rfl⟩ | ⟨different, before⟩
    · have own := inTurn.absent call (List.mem_of_getElem? at_i)
      cases move with
      | hit => exact absurd ⟨_, rfl⟩ unanswered
      | miss absent => exact absent
      | load => exact own (by simp) moving
      | settle => exact absurd ⟨_, rfl⟩ unanswered
    · exact absurd (inTurn.answered_of_ne at_i moving before different) unanswered
  · obtain ⟨j, at_j⟩ := List.getElem?_of_mem inside
    rcases getElem?_set_call at_j with ⟨rfl, rfl⟩ | ⟨-, before⟩
    · have own := inTurn.unasked call (List.mem_of_getElem? at_i)
      cases move with
      | hit | load | settle => simp at phase
      | miss => exact own (.inl rfl)
    · exact inTurn.unasked other (List.mem_of_getElem? before) phase

theorem InTurn.step (inTurn : InTurn s) (sound : Sound mayLoad s) (step : StepInTurn mayLoad s t) : InTurn t := by
  obtain ⟨step, waits⟩ := step
  cases step with
  | start name => exact inTurn.start (waits (by simp)) name
  | move at_i move => exact inTurn.move sound at_i move

/-- With one call after the other the loader is asked for a name at most once. -/
theorem asksFor_le_one (steps : Relation.ReflTransGen (StepInTurn mayLoad) {} s) (name : String) :
    s.asksFor name ≤ 1 := by
  have both : Sound mayLoad s ∧ InTurn s := by
    induction steps with
    | refl => exact ⟨sound_start, inTurn_start⟩
    | tail _ step ih => exact ⟨ih.1.step step.1, ih.2.step ih.1 step⟩
  exact both.2.once name

/-- A move of the last call, with the others as they are. -/
theorem StepInTurn.last {calls : List CacheCall} (move : Move mayLoad cache call cache' call') :
    StepInTurn mayLoad ⟨cache, calls ++ [call]⟩ ⟨cache', calls ++ [call']⟩ := by
  have step := Step.move (s := ⟨cache, calls ++ [call]⟩) (i := calls.length) (by simp) move
  rw [List.set_append_right _ _ (Nat.le_refl _), Nat.sub_self, List.set_cons_zero] at step
  exact ⟨step, fun grown => absurd (by simp) grown⟩

theorem Idle.concat (idle : s.Idle) (answered : call.isAnswered) : Idle ⟨cache, s.calls ++ [call]⟩ := by
  intro other member
  rcases List.mem_append.mp member with before | new
  · exact idle other before
  · exact List.mem_singleton.mp new ▸ answered

/-- Looking a name up with nobody else at work is a run of the steps. -/
theorem steps_get (loader : Loader) (name : String) (idle : s.Idle) :
    ∃ asked, Relation.ReflTransGen (StepInTurn fun name outcome => outcome = (loader.load name).toOption) s
      ⟨(s.cache.get loader name).2, s.calls ++ [⟨name, .answered (s.cache.get loader name).1, asked⟩]⟩ := by
  have start : StepInTurn (fun name outcome => outcome = (loader.load name).toOption) s
      ⟨s.cache, s.calls ++ [⟨name, .looking, false⟩]⟩ := ⟨.start name, fun _ => idle⟩
  unfold Cache.get
  split
  · next standing found => exact ⟨false, (Relation.ReflTransGen.single start).tail (.last (.hit found))⟩
  · next absent =>
    have missed := (Relation.ReflTransGen.single start).tail (.last (.miss absent))
    exact ⟨true, (missed.tail (.last (.load rfl))).tail (.last .settle)⟩

/-- Looking names up one after the other is a run of the steps. -/
theorem steps_getAll (loader : Loader) (names : List String) (idle : s.Idle) :
    ∃ t, Relation.ReflTransGen (StepInTurn fun name outcome => outcome = (loader.load name).toOption) s t ∧
      t.cache = s.cache.getAll loader names ∧ t.calls.map (·.name) = s.calls.map (·.name) ++ names := by
  induction names generalizing s with
  | nil => exact ⟨s, .refl, rfl, by simp⟩
  | cons name more ih =>
    obtain ⟨asked, first⟩ := steps_get loader name idle
    have stillIdle : Idle ⟨(s.cache.get loader name).2,
        s.calls ++ [⟨name, .answered (s.cache.get loader name).1, asked⟩]⟩ := idle.concat ⟨_, rfl⟩
    obtain ⟨t, rest, cache, calls⟩ := ih stillIdle
    exact ⟨t, first.trans rest, cache, by simpa using calls⟩

theorem StepInTurn.steps (steps : Relation.ReflTransGen (StepInTurn mayLoad) s t) :
    Relation.ReflTransGen (Step mayLoad) s t :=
  Relation.ReflTransGen.mono (fun _ _ step => step.1) _ _ steps

end SharedCache

/-- The assemblies of some names as a question reads them, through the cache and one after the other. -/
def Cache.supply (cache : Cache) (loader : Loader) : List String → List Assembly
  | [] => []
  | name :: more => (cache.get loader name).1.toList ++ (cache.get loader name).2.supply loader more

/-- Every entry is what the loader gives for its name. -/
def Cache.Genuine (cache : Cache) (loader : Loader) : Prop :=
  ∀ name entry, cache.find? name = some entry → entry = (loader.load name).toOption

theorem Cache.Genuine.get {cache : Cache} {loader : Loader} (genuine : cache.Genuine loader) (name : String) :
    (cache.get loader name).1 = (loader.load name).toOption ∧ (cache.get loader name).2.Genuine loader := by
  unfold Cache.get
  split
  · next standing found => exact ⟨genuine name standing found, genuine⟩
  · next absent =>
    refine ⟨by rw [Cache.settle, absent], fun other entry found => ?_⟩
    by_cases same : other = name
    · subst same
      rw [Cache.find?_settle, Cache.settle, absent] at found
      exact (Option.some.inj found).symm
    · rw [Cache.find?_settle_of_ne _ same] at found
      exact genuine other entry found

theorem Cache.Genuine.supply {cache : Cache} {loader : Loader} (genuine : cache.Genuine loader)
    (names : List String) : cache.supply loader names = names.filterMap fun name => (loader.load name).toOption := by
  induction names generalizing cache with
  | nil => rfl
  | cons name more ih =>
    obtain ⟨answer, rest⟩ := genuine.get name
    rw [Cache.supply, ih rest, answer, List.filterMap_cons]
    cases (loader.load name).toOption <;> rfl

/-- The cache after questions is that of callers who wait for each other. -/
theorem steps_load (c : Catalog) (queries : List Query) :
    ∃ s, Relation.ReflTransGen
        (SharedCache.StepInTurn fun name outcome => outcome = (c.loader.load name).toOption) {} s ∧
      s.cache = c.load {} queries ∧ s.calls.map (·.name) = queries.flatMap c.demand := by
  obtain ⟨s, steps, cache, calls⟩ := SharedCache.steps_getAll (s := {}) c.loader (queries.flatMap c.demand) (by
    intro call member
    exact absurd member List.not_mem_nil)
  exact ⟨s, steps, cache, calls⟩

theorem genuine_load (c : Catalog) (queries : List Query) : (c.load {} queries).Genuine c.loader := by
  obtain ⟨s, steps, cache, -⟩ := c.steps_load queries
  exact cache ▸ (SharedCache.sound_start.steps (SharedCache.StepInTurn.steps steps)).genuine

/-- Whatever the order of the steps, entries stand as they were made, calls are answered with the entries, and
a call that begins after an answer for its name leaves the loader alone. With one call after the other the
loader is asked for a name at most once, and questions see the same assemblies whatever was asked before. -/
theorem SharedCache.single_assignment {mayLoad : String → Option Assembly → Prop} {s later : SharedCache}
    (reached : Relation.ReflTransGen (Step mayLoad) {} s)
    (continued : Relation.ReflTransGen (Step mayLoad) s later) :
    (∀ name entry, s.cache.find? name = some entry →
      mayLoad name entry ∧ later.cache.find? name = some entry) ∧
    (∀ call ∈ later.calls, ∀ entry, call.phase = .answered entry → later.cache.find? call.name = some entry) ∧
    (∀ first ∈ later.calls, ∀ second ∈ later.calls, first.name = second.name →
      ∀ entry entry', first.phase = .answered entry → second.phase = .answered entry' → entry = entry') ∧
    (∀ done ∈ s.calls, done.isAnswered → ∀ i call, s.calls.length ≤ i → later.calls[i]? = some call →
      call.name = done.name → call.asked = false) ∧
    Set.encard {name | ∃ a, later.cache.find? name = some (some a)} = later.cache.loadedCount ∧
    (∀ turn, Relation.ReflTransGen (StepInTurn mayLoad) {} turn → ∀ name, turn.asksFor name ≤ 1) ∧
    ∀ (c : Catalog) (queries : List Query) (namespaces : List String),
      (∃ turn, Relation.ReflTransGen (StepInTurn fun name outcome => outcome = (c.loader.load name).toOption)
          {} turn ∧ turn.cache = c.load {} queries ∧ turn.calls.map (·.name) = queries.flatMap c.demand) ∧
        (c.load {} queries).supply c.loader (c.assemblyNames namespaces) = c.assembliesFor namespaces := by
  have sound := sound_start.steps reached
  have soundLater := sound.steps continued
  refine ⟨fun name entry found => ⟨sound.genuine name entry found, retains_of_steps continued found⟩,
    fun call member => (soundLater.truthful call member).answered, fun first one second other same entry entry' =>
      soundLater.agree one other same, fun done member answered i call late at_i named => ?_,
    Cache.encard_loaded soundLater.distinct, fun turn steps => asksFor_le_one steps,
    fun c queries namespaces => ⟨c.steps_load queries, (c.genuine_load queries).supply _⟩⟩
  exact (((sound.settled member answered).steps continued).spared i call late at_i named).1

/-- Two calls that race for a name. The loader fails for the first to ask and serves the second, the failure is
entered first, and both calls and a third that begins later are answered with it. -/
theorem SharedCache.single_assignment_race :
    ∃ raced joined : SharedCache,
      raced.calls = [⟨"Core", .answered none, true⟩, ⟨"Core", .answered none, true⟩] ∧
      joined.calls = raced.calls ++ [⟨"Core", .answered none, false⟩] ∧
      (∀ call ∈ joined.calls, ∀ entry,
        call.phase = .answered entry → joined.cache.find? call.name = some entry) ∧
      Set.encard {name | ∃ a, joined.cache.find? name = some (some a)} = joined.cache.loadedCount := by
  let anything : String → Option Assembly → Prop := fun _ _ => True
  let failed : Cache := ⟨[("Core", none)]⟩
  have begun : Relation.ReflTransGen (Step anything) {}
      ⟨{}, [⟨"Core", .looking, false⟩, ⟨"Core", .looking, false⟩]⟩ :=
    (Relation.ReflTransGen.single (.start "Core")).tail (.start "Core")
  have missed : Relation.ReflTransGen (Step anything) {}
      ⟨{}, [⟨"Core", .missed, false⟩, ⟨"Core", .missed, false⟩]⟩ :=
    (begun.tail (.move (i := 0) rfl (.miss rfl))).tail (.move (i := 1) rfl (.miss rfl))
  have loaded : Relation.ReflTransGen (Step anything) {}
      ⟨{}, [⟨"Core", .loaded none, true⟩, ⟨"Core", .loaded (some coreLibrary), true⟩]⟩ :=
    (missed.tail (.move (i := 0) rfl (.load trivial))).tail (.move (i := 1) rfl (.load trivial))
  have raced : Relation.ReflTransGen (Step anything) {}
      ⟨failed, [⟨"Core", .answered none, true⟩, ⟨"Core", .answered none, true⟩]⟩ :=
    (loaded.tail (.move (i := 0) rfl .settle)).tail (.move (i := 1) rfl .settle)
  have joined : Relation.ReflTransGen (Step anything)
      ⟨failed, [⟨"Core", .answered none, true⟩, ⟨"Core", .answered none, true⟩]⟩
      ⟨failed, [⟨"Core", .answered none, true⟩, ⟨"Core", .answered none, true⟩,
        ⟨"Core", .answered none, false⟩]⟩ :=
    (Relation.ReflTransGen.single (.start "Core")).tail (.move (i := 2) rfl (.hit rfl))
  obtain ⟨-, answers, -, -, counted, -⟩ := single_assignment raced joined
  exact ⟨⟨failed, _⟩, ⟨failed, _⟩, rfl, rfl, answers, counted⟩

end Typeahead.Catalog
