import Mathlib.Order.Bounds.Basic
import Typeahead.Proofs.Source.Nested

namespace Typeahead.Source

/-- The bracket that a token closes. -/
def Token.closes? (t : Token) : Option Bracket :=
  if t.isMark '}' then some .brace
  else if t.isMark ')' then some .paren
  else if t.isMark ']' then some .square
  else none

/-- How many groups of a kind some tokens open. -/
def opened (kind : Bracket) (ts : List Token) : Nat := ts.countP (·.isMark kind.opening)

/-- How many groups of a kind some tokens close. -/
def closed (kind : Bracket) (ts : List Token) : Nat := ts.countP (·.isMark kind.closing)

/-- Behind `depth` open groups of a kind, the tokens up to the one at `k` close one more than are open. -/
def Exceeds (kind : Bracket) (depth : Nat) (ts : List Token) (k : Nat) : Prop :=
  k < ts.length ∧ closed kind (ts.take (k + 1)) = opened kind (ts.take (k + 1)) + depth + 1

/-- The tokens after index `i` and up to index `j` close one group of a kind more than they open. -/
structure Surplus (kind : Bracket) (ts : List Token) (i j : Nat) : Prop where
  behind : i < j
  inside : j < ts.length
  count : closed kind ((ts.drop (i + 1)).take (j - i)) = opened kind ((ts.drop (i + 1)).take (j - i)) + 1

/-- The token at an index opens a group of a kind. -/
def OpensGroup (kind : Bracket) (ts : List Token) (i : Nat) : Prop :=
  ∃ t, ts[i]? = some t ∧ t.lexeme = .mark kind.opening

/-- The bracket at `b` is opened before index `n` and not closed before it. -/
structure OpenAt (kind : Bracket) (ts : List Token) (n b : Nat) : Prop where
  opens : OpensGroup kind ts b
  before : b < n
  still : ∀ j < n, ¬ Surplus kind ts b j

/-- The open brackets of a kind behind one more token, which stands at index `i`. A closing bracket is passed over
when none is open. -/
def stackStep (kind : Bracket) (stack : List Nat) (i : Nat) (t : Token) : List Nat :=
  if t.isMark kind.opening then i :: stack
  else if t.isMark kind.closing then stack.tail
  else stack

/-- What one pass over tokens has met: for each kind the brackets that wait to be closed, the innermost first,
and for each index the index of the bracket that closes the one there. -/
structure Brackets where
  waiting : Bracket → List Nat
  closers : List (Option Nat)

def Brackets.step (met : Brackets) (i : Nat) (t : Token) : Brackets where
  waiting kind := stackStep kind (met.waiting kind) i t
  closers :=
    match t.closes?.bind fun kind => (met.waiting kind).head? with
    | some b => met.closers.set b (some i)
    | none => met.closers

/-- What the pass has met in the first `n` tokens. -/
def bracketsBefore (ts : List Token) : Nat → Brackets
  | 0 => { waiting := fun _ => [], closers := List.replicate ts.length none }
  | n + 1 =>
    match ts[n]? with
    | some t => (bracketsBefore ts n).step n t
    | none => bracketsBefore ts n

/-- For each index the index of the bracket that closes the one there. -/
def closers (ts : List Token) : List (Option Nat) := (bracketsBefore ts ts.length).closers

variable {kind other : Bracket} {depth first i j k n a b c d : Nat} {t : Token} {ts found : List Token}
  {stack : List Nat}

theorem isOpening_of_opens? (opens : t.opens? = some kind) : t.lexeme = .mark kind.opening := by
  unfold Token.opens? at opens
  simp only [Token.isMark, beq_iff_eq] at opens
  split at opens
  · obtain rfl := Option.some.inj opens
    assumption
  · split at opens
    · obtain rfl := Option.some.inj opens
      assumption
    · split at opens
      · obtain rfl := Option.some.inj opens
        assumption
      · simp at opens

theorem closes?_eq_some_iff : t.closes? = some kind ↔ t.lexeme = .mark kind.closing := by
  constructor
  · intro closes
    unfold Token.closes? at closes
    simp only [Token.isMark, beq_iff_eq] at closes
    split at closes
    · obtain rfl := Option.some.inj closes
      assumption
    · split at closes
      · obtain rfl := Option.some.inj closes
        assumption
      · split at closes
        · obtain rfl := Option.some.inj closes
          assumption
        · simp at closes
  · intro closing
    cases kind <;> simp [Token.closes?, Token.isMark, closing, Bracket.closing]

theorem OpensGroup.kind_eq (opens : OpensGroup kind ts i) (again : OpensGroup other ts i) : kind = other := by
  obtain ⟨t, here, isOpening⟩ := opens
  obtain ⟨u, same, isOther⟩ := again
  obtain rfl := Option.some.inj (here.symm.trans same)
  rw [isOpening] at isOther
  by_contra different
  exact (Bracket.opening_ne different).1 (Lexeme.mark.inj isOther)

theorem OpensGroup.lt_length (opens : OpensGroup kind ts i) : i < ts.length := by
  obtain ⟨t, here, -⟩ := opens
  exact (List.getElem?_eq_some_iff.mp here).1

theorem drop_of_getElem? (here : ts[n]? = some t) : ts.drop n = t :: ts.drop (n + 1) := by
  obtain ⟨inside, rfl⟩ := List.getElem?_eq_some_iff.mp here
  exact List.drop_eq_getElem_cons inside

@[simp] theorem opened_nil (kind : Bracket) : opened kind [] = 0 := rfl

@[simp] theorem closed_nil (kind : Bracket) : closed kind [] = 0 := rfl

theorem opened_cons (kind : Bracket) (t : Token) (ts : List Token) :
    opened kind (t :: ts) = opened kind ts + if t.lexeme = .mark kind.opening then 1 else 0 := by
  simp [opened, List.countP_cons, Token.isMark]

theorem closed_cons (kind : Bracket) (t : Token) (ts : List Token) :
    closed kind (t :: ts) = closed kind ts + if t.lexeme = .mark kind.closing then 1 else 0 := by
  simp [closed, List.countP_cons, Token.isMark]

theorem ne_opening_of_closing (closing : t.lexeme = .mark kind.closing) : t.lexeme ≠ .mark kind.opening := by
  simp [closing, kind.closing_ne_opening]

theorem exceeds_zero : Exceeds kind depth (t :: ts) 0 ↔ t.lexeme = .mark kind.closing ∧ depth = 0 := by
  simp only [Exceeds, List.length_cons, Nat.zero_lt_succ, true_and, Nat.zero_add, List.take_succ_cons, List.take_zero,
    opened_cons, closed_cons, opened_nil, closed_nil]
  by_cases closing : t.lexeme = .mark kind.closing
  · rw [if_pos closing, if_neg (ne_opening_of_closing closing)]
    simp only [closing, true_and]
    omega
  · rw [if_neg closing]
    simp only [closing, false_and, iff_false]
    omega

theorem exceeds_opening (opening : t.lexeme = .mark kind.opening) :
    Exceeds kind depth (t :: ts) (k + 1) ↔ Exceeds kind (depth + 1) ts k := by
  have notClosing : t.lexeme ≠ .mark kind.closing := fun closing => ne_opening_of_closing closing opening
  simp only [Exceeds, List.length_cons, List.take_succ_cons, opened_cons, closed_cons, if_pos opening,
    if_neg notClosing]
  omega

theorem exceeds_closing (closing : t.lexeme = .mark kind.closing) :
    Exceeds kind (depth + 1) (t :: ts) (k + 1) ↔ Exceeds kind depth ts k := by
  simp only [Exceeds, List.length_cons, List.take_succ_cons, opened_cons, closed_cons, if_pos closing,
    if_neg (ne_opening_of_closing closing)]
  omega

theorem exceeds_other (notOpening : t.lexeme ≠ .mark kind.opening) (notClosing : t.lexeme ≠ .mark kind.closing) :
    Exceeds kind depth (t :: ts) (k + 1) ↔ Exceeds kind depth ts k := by
  simp only [Exceeds, List.length_cons, List.take_succ_cons, opened_cons, closed_cons, if_neg notOpening,
    if_neg notClosing]
  omega

theorem closerFrom_zero_closing (closing : t.lexeme = .mark kind.closing) :
    closerFrom kind 0 (t :: ts) = some (t :: ts) := by
  rw [closerFrom, isMark_eq_false (ne_opening_of_closing closing), isMark_of_eq closing]
  rfl

/-- What a search finds: the tokens from the first one on up to which more is closed than is open. -/
def FindsFirst (kind : Bracket) (depth : Nat) (ts : List Token) : Option (List Token) → Prop
  | some found => ∃ k, found = ts.drop k ∧ IsLeast {k | Exceeds kind depth ts k} k
  | none => ∀ k, ¬ Exceeds kind depth ts k

/-- What is found behind a token that is not itself what the search looks for. -/
theorem FindsFirst.cons {depth' : Nat} {answer : Option (List Token)} (rest : FindsFirst kind depth' ts answer)
    (here : ¬ Exceeds kind depth (t :: ts) 0)
    (later : ∀ k, Exceeds kind depth (t :: ts) (k + 1) ↔ Exceeds kind depth' ts k) :
    FindsFirst kind depth (t :: ts) answer := by
  cases answer with
  | none =>
    intro k exceeds
    cases k with
    | zero => exact here exceeds
    | succ k => exact rest k ((later k).mp exceeds)
  | some found =>
    obtain ⟨k, rfl, holds, least⟩ := rest
    refine ⟨k + 1, List.drop_succ_cons.symm, (later k).mpr holds, fun m exceeds => ?_⟩
    cases m with
    | zero => exact absurd exceeds here
    | succ m => exact Nat.succ_le_succ (least ((later m).mp exceeds))

/-- The search for the closing bracket finds the first token up to which more is closed than is open. -/
theorem closerFrom_exceeds (kind : Bracket) (depth : Nat) (ts : List Token) :
    FindsFirst kind depth ts (closerFrom kind depth ts) := by
  induction ts generalizing depth with
  | nil => exact fun k exceeds => Nat.not_lt_zero k exceeds.1
  | cons t ts ih =>
    by_cases opening : t.lexeme = .mark kind.opening
    · rw [closerFrom_opening opening]
      have here : ¬ Exceeds kind depth (t :: ts) 0 := fun exceeds =>
        ne_opening_of_closing (exceeds_zero.mp exceeds).1 opening
      exact (ih (depth + 1)).cons here fun _ => exceeds_opening opening
    · by_cases closing : t.lexeme = .mark kind.closing
      · cases depth with
        | zero =>
          rw [closerFrom_zero_closing closing]
          exact ⟨0, rfl, exceeds_zero.mpr ⟨closing, rfl⟩, fun _ _ => Nat.zero_le _⟩
        | succ depth =>
          rw [closerFrom_closing closing]
          have here : ¬ Exceeds kind (depth + 1) (t :: ts) 0 := fun exceeds =>
            Nat.succ_ne_zero depth (exceeds_zero.mp exceeds).2
          exact (ih depth).cons here fun _ => exceeds_closing closing
      · rw [closerFrom_other opening closing]
        have here : ¬ Exceeds kind depth (t :: ts) 0 := fun exceeds => closing (exceeds_zero.mp exceeds).1
        exact (ih depth).cons here fun _ => exceeds_other opening closing

theorem closerFrom_ne_nil (search : closerFrom kind depth ts = some found) : found ≠ [] := by
  have finds := closerFrom_exceeds kind depth ts
  rw [search] at finds
  obtain ⟨k, rfl, exceeds, -⟩ := finds
  rw [Ne, List.drop_eq_nil_iff]
  exact Nat.not_le_of_lt exceeds.1

theorem surplus_iff : Surplus kind ts i j ↔ ∃ k, j = i + 1 + k ∧ Exceeds kind 0 (ts.drop (i + 1)) k := by
  constructor
  · intro surplus
    have behind := surplus.behind
    have inside := surplus.inside
    have length : j - i = j - i - 1 + 1 := by omega
    refine ⟨j - i - 1, by omega, by rw [List.length_drop]; omega, ?_⟩
    rw [← length]
    exact surplus.count
  · rintro ⟨k, rfl, inside, count⟩
    rw [List.length_drop] at inside
    have length : i + 1 + k - i = k + 1 := by omega
    exact ⟨by omega, by omega, by rw [length]; exact count⟩

/-- The search behind a bracket finds the first index up to which more is closed than is opened. -/
theorem closerFrom_eq_drop_iff :
    closerFrom kind 0 (ts.drop (i + 1)) = some (ts.drop j) ∧ j < ts.length ↔ IsLeast {j | Surplus kind ts i j} j := by
  have finds := closerFrom_exceeds kind 0 (ts.drop (i + 1))
  constructor
  · rintro ⟨search, inside⟩
    rw [search] at finds
    obtain ⟨k, found, exceeds, least⟩ := finds
    have position : j = i + 1 + k := by
      have lengths := congrArg List.length found
      have short := exceeds.1
      simp only [List.length_drop] at lengths short
      omega
    refine ⟨surplus_iff.mpr ⟨k, position, exceeds⟩, fun m surplus => ?_⟩
    obtain ⟨l, rfl, more⟩ := surplus_iff.mp surplus
    have := least more
    omega
  · rintro ⟨surplus, least⟩
    obtain ⟨k, rfl, exceeds⟩ := surplus_iff.mp surplus
    cases search : closerFrom kind 0 (ts.drop (i + 1)) with
    | none =>
      rw [search] at finds
      exact absurd exceeds (finds k)
    | some found =>
      rw [search] at finds
      obtain ⟨l, rfl, first, before⟩ := finds
      have le := before exceeds
      have ge := least (surplus_iff.mpr ⟨l, rfl, first⟩ : Surplus kind ts i (i + 1 + l))
      obtain rfl : l = k := by omega
      exact ⟨by rw [List.drop_drop], surplus.inside⟩

theorem closerFrom_eq_none_iff : closerFrom kind 0 (ts.drop (i + 1)) = none ↔ ∀ j, ¬ Surplus kind ts i j := by
  have finds := closerFrom_exceeds kind 0 (ts.drop (i + 1))
  constructor
  · intro search j surplus
    rw [search] at finds
    obtain ⟨k, -, exceeds⟩ := surplus_iff.mp surplus
    exact finds k exceeds
  · intro never
    cases search : closerFrom kind 0 (ts.drop (i + 1)) with
    | none => rfl
    | some found =>
      rw [search] at finds
      obtain ⟨k, -, exceeds, -⟩ := finds
      exact absurd (surplus_iff.mpr ⟨k, rfl, exceeds⟩) (never _)

theorem exists_isLeast_of_closerFrom (search : closerFrom kind 0 (ts.drop (i + 1)) = some found) :
    ∃ j, found = ts.drop j ∧ IsLeast {j | Surplus kind ts i j} j := by
  have finds := closerFrom_exceeds kind 0 (ts.drop (i + 1))
  rw [search] at finds
  obtain ⟨k, rfl, exceeds, -⟩ := finds
  have inside := exceeds.1
  rw [List.length_drop] at inside
  rw [List.drop_drop] at search ⊢
  exact ⟨i + 1 + k, rfl, closerFrom_eq_drop_iff.mp ⟨search, by omega⟩⟩

/-- Where more is closed than opened at all, there is a first such index. -/
theorem Surplus.exists_isLeast (surplus : Surplus kind ts i j) : ∃ j, IsLeast {j | Surplus kind ts i j} j := by
  cases search : closerFrom kind 0 (ts.drop (i + 1)) with
  | none => exact absurd surplus (closerFrom_eq_none_iff.mp search j)
  | some found =>
    obtain ⟨first, -, least⟩ := exists_isLeast_of_closerFrom search
    exact ⟨first, least⟩

theorem isClosing_of_closerFrom {rest : List Token} (search : closerFrom kind depth ts = some (t :: rest)) :
    t.lexeme = .mark kind.closing := by
  induction ts generalizing depth with
  | nil => simp [closerFrom] at search
  | cons u ts ih =>
    by_cases opening : u.lexeme = .mark kind.opening
    · exact ih (closerFrom_opening opening ▸ search)
    · by_cases closing : u.lexeme = .mark kind.closing
      · cases depth with
        | zero =>
          rw [closerFrom_zero_closing closing] at search
          rwa [(List.cons.inj (Option.some.inj search)).1] at closing
        | succ depth => exact ih (closerFrom_closing closing ▸ search)
      · exact ih (closerFrom_other opening closing ▸ search)

/-- The first index up to which more is closed than is opened has a closing bracket. -/
theorem Surplus.closing_of_isLeast (least : IsLeast {j | Surplus kind ts b j} j) (here : ts[j]? = some t) :
    t.lexeme = .mark kind.closing := by
  have search := (closerFrom_eq_drop_iff.mpr least).1
  rw [drop_of_getElem? here] at search
  exact isClosing_of_closerFrom search

/-- A search past more open groups goes on behind the end of the innermost ones. -/
theorem closerFrom_add (kind : Bracket) (depth more : Nat) (ts : List Token) :
    closerFrom kind (depth + more + 1) ts =
      (closerFrom kind depth ts).bind fun found => closerFrom kind more (found.drop 1) := by
  induction ts generalizing depth with
  | nil => rfl
  | cons t ts ih =>
    by_cases opening : t.lexeme = .mark kind.opening
    · rw [closerFrom_opening opening, closerFrom_opening opening, ← ih (depth + 1), Nat.add_right_comm depth 1 more]
    · by_cases closing : t.lexeme = .mark kind.closing
      · rw [closerFrom_closing closing]
        cases depth with
        | zero =>
          rw [closerFrom_zero_closing closing, Nat.zero_add]
          rfl
        | succ depth => rw [closerFrom_closing closing, ← ih depth, Nat.add_right_comm depth 1 more]
      · rw [closerFrom_other opening closing, closerFrom_other opening closing, ih depth]

/-- A search past more open groups ends behind the end of the innermost one. -/
theorem closerFrom_lt {more : Nat} (search : closerFrom kind (more + 1) ts = some found) :
    ∃ inner, closerFrom kind 0 ts = some inner ∧ found.length < inner.length := by
  rw [← Nat.zero_add more, closerFrom_add] at search
  obtain ⟨inner, here, later⟩ := Option.bind_eq_some_iff.mp search
  refine ⟨inner, here, ?_⟩
  have short := closerFrom_length_le later
  rw [List.length_drop] at short
  cases inner with
  | nil => simp [closerFrom] at later
  | cons t rest =>
    rw [List.length_cons] at short ⊢
    omega

/-- A search reaches a later place, with some groups open there, or it has ended before it. -/
theorem closerFrom_suffix_cases (kind : Bracket) (depth : Nat) {back : List Token} (suffix : back <:+ ts) :
    (∃ deeper, closerFrom kind depth ts = closerFrom kind deeper back) ∨
      ∃ closing rest, closerFrom kind depth ts = some (closing :: rest) ∧ back <:+ rest := by
  obtain ⟨front, rfl⟩ := suffix
  induction front generalizing depth with
  | nil => exact .inl ⟨depth, rfl⟩
  | cons t front ih =>
    rw [List.cons_append]
    by_cases opening : t.lexeme = .mark kind.opening
    · rw [closerFrom_opening opening]
      exact ih (depth + 1)
    · by_cases closing : t.lexeme = .mark kind.closing
      · cases depth with
        | zero => exact .inr ⟨t, front ++ back, closerFrom_zero_closing closing, List.suffix_append front back⟩
        | succ depth =>
          rw [closerFrom_closing closing]
          exact ih depth
      · rw [closerFrom_other opening closing]
        exact ih depth

/-- A stack of the brackets of a kind that stand at `first` or behind it and are open at index `n`, the innermost
first. Each is closed where the search from `n` closes it and those above it on the stack. -/
structure StackAt (kind : Bracket) (ts : List Token) (first n : Nat) (stack : List Nat) : Prop where
  sorted : stack.Pairwise (· > ·)
  mem_iff : ∀ b, b ∈ stack ↔ first ≤ b ∧ OpenAt kind ts n b
  closes : ∀ depth b, stack[depth]? = some b →
    closerFrom kind 0 (ts.drop (b + 1)) = closerFrom kind depth (ts.drop n)

theorem stackAt_nil (kind : Bracket) (ts : List Token) (first : Nat) : StackAt kind ts first first [] where
  sorted := .nil
  mem_iff b := by
    simp only [List.not_mem_nil, false_iff, not_and]
    intro le openAt
    have := openAt.before
    omega
  closes depth b := by simp

/-- A bracket that is open stays so until the search behind it finds its closing one. -/
theorem openAt_succ_iff : OpenAt kind ts (n + 1) b ↔
    (OpenAt kind ts n b ∨ b = n ∧ OpensGroup kind ts n) ∧ ¬ Surplus kind ts b n := by
  constructor
  · intro openAt
    refine ⟨?_, openAt.still n (Nat.lt_succ_self n)⟩
    rcases Nat.lt_succ_iff_lt_or_eq.mp openAt.before with before | rfl
    · exact .inl ⟨openAt.opens, before, fun j lt => openAt.still j (by omega)⟩
    · exact .inr ⟨rfl, openAt.opens⟩
  · rintro ⟨openAt | ⟨rfl, opens⟩, notHere⟩
    · refine ⟨openAt.opens, Nat.lt_succ_of_lt openAt.before, fun j lt => ?_⟩
      rcases Nat.lt_succ_iff_lt_or_eq.mp lt with before | rfl
      · exact openAt.still j before
      · exact notHere
    · refine ⟨opens, Nat.lt_succ_self b, fun j lt surplus => ?_⟩
      have := surplus.behind
      omega

theorem OpenAt.isLeast (openAt : OpenAt kind ts n b) (surplus : Surplus kind ts b n) :
    IsLeast {j | Surplus kind ts b j} n :=
  ⟨surplus, fun j earlier => Nat.le_of_not_lt fun lt => openAt.still j lt earlier⟩

/-- A bracket that is open at an index is closed there when the search from the index ends right there. -/
theorem OpenAt.surplus_iff (openAt : OpenAt kind ts n b) (inside : n < ts.length) :
    Surplus kind ts b n ↔ closerFrom kind 0 (ts.drop (b + 1)) = some (ts.drop n) := by
  constructor
  · intro surplus
    exact (closerFrom_eq_drop_iff.mpr (openAt.isLeast surplus)).1
  · intro search
    exact (closerFrom_eq_drop_iff.mp ⟨search, inside⟩).1

theorem OpenAt.closing_of_surplus (openAt : OpenAt kind ts n b) (surplus : Surplus kind ts b n)
    (here : ts[n]? = some t) : t.lexeme = .mark kind.closing :=
  Surplus.closing_of_isLeast (openAt.isLeast surplus) here

namespace StackAt

variable (at_ : StackAt kind ts first n stack) (here : ts[n]? = some t)
include at_ here

/-- What a closing bracket closes is on top of the stack. -/
theorem head?_eq_some_iff (closing : t.lexeme = .mark kind.closing) :
    stack.head? = some b ↔ (first ≤ b ∧ OpenAt kind ts n b) ∧ Surplus kind ts b n := by
  have rest := drop_of_getElem? here
  have inside := (List.getElem?_eq_some_iff.mp here).1
  constructor
  · intro top
    have member := (at_.mem_iff b).mp (List.mem_of_head? top)
    rw [List.head?_eq_getElem?] at top
    refine ⟨member, (member.2.surplus_iff inside).mpr ?_⟩
    rw [at_.closes 0 b top, rest, closerFrom_zero_closing closing]
  · rintro ⟨member, surplus⟩
    obtain ⟨depth, same⟩ := List.getElem?_of_mem ((at_.mem_iff b).mpr member)
    have search := (member.2.surplus_iff inside).mp surplus
    rw [at_.closes depth b same, rest] at search
    cases depth with
    | zero => rwa [List.head?_eq_getElem?]
    | succ depth =>
      rw [closerFrom_closing closing] at search
      have := closerFrom_length_le search
      simp only [List.length_cons] at this
      omega

theorem push (opening : t.lexeme = .mark kind.opening) (le : first ≤ n) :
    StackAt kind ts first (n + 1) (n :: stack) where
  sorted := List.pairwise_cons.mpr ⟨fun b member => ((at_.mem_iff b).mp member).2.before, at_.sorted⟩
  mem_iff b := by
    rw [List.mem_cons, at_.mem_iff, openAt_succ_iff]
    constructor
    · rintro (rfl | ⟨behind, openAt⟩)
      · exact ⟨le, .inr ⟨rfl, t, here, opening⟩, fun surplus => absurd surplus.behind (Nat.lt_irrefl b)⟩
      · refine ⟨behind, .inl openAt, fun surplus => ?_⟩
        exact ne_opening_of_closing (openAt.closing_of_surplus surplus here) opening
    · rintro ⟨behind, openAt | ⟨same, -⟩, -⟩
      · exact .inr ⟨behind, openAt⟩
      · exact .inl same
  closes depth b same := by
    cases depth with
    | zero =>
      obtain rfl : n = b := by simpa using same
      rfl
    | succ depth =>
      rw [List.getElem?_cons_succ] at same
      rw [at_.closes depth b same, drop_of_getElem? here, closerFrom_opening opening]

theorem pop (closing : t.lexeme = .mark kind.closing) : StackAt kind ts first (n + 1) stack.tail where
  sorted := at_.sorted.sublist (List.tail_sublist stack)
  mem_iff b := by
    have notOpening : ¬ (b = n ∧ OpensGroup kind ts n) := by
      rintro ⟨-, u, same, opening⟩
      obtain rfl := Option.some.inj (here.symm.trans same)
      exact ne_opening_of_closing closing opening
    have inTail : b ∈ stack.tail ↔ b ∈ stack ∧ stack.head? ≠ some b := by
      cases stack with
      | nil => simp
      | cons top others =>
        have below := List.pairwise_cons.mp at_.sorted
        simp only [List.tail_cons, List.mem_cons, List.head?_cons, ne_eq, Option.some.injEq]
        constructor
        · intro member
          exact ⟨.inr member, (Nat.ne_of_lt (below.1 b member)).symm⟩
        · rintro ⟨same | member, different⟩
          · exact absurd same.symm different
          · exact member
    rw [inTail, at_.mem_iff, ne_eq, at_.head?_eq_some_iff here closing, openAt_succ_iff]
    simp only [notOpening, or_false]
    tauto
  closes depth b same := by
    have deeper : stack[depth + 1]? = some b := by rwa [List.getElem?_tail] at same
    rw [at_.closes (depth + 1) b deeper, drop_of_getElem? here, closerFrom_closing closing]

theorem keep (notOpening : t.lexeme ≠ .mark kind.opening) (notClosing : t.lexeme ≠ .mark kind.closing) :
    StackAt kind ts first (n + 1) stack where
  sorted := at_.sorted
  mem_iff b := by
    rw [at_.mem_iff, openAt_succ_iff]
    constructor
    · rintro ⟨behind, openAt⟩
      exact ⟨behind, .inl openAt, fun surplus => notClosing (openAt.closing_of_surplus surplus here)⟩
    · rintro ⟨behind, openAt | ⟨-, u, same, opening⟩, -⟩
      · exact ⟨behind, openAt⟩
      · obtain rfl := Option.some.inj (here.symm.trans same)
        exact absurd opening notOpening
  closes depth b same := by
    rw [at_.closes depth b same, drop_of_getElem? here, closerFrom_other notOpening notClosing]

/-- The stack behind one more token. -/
theorem step (le : first ≤ n) : StackAt kind ts first (n + 1) (stackStep kind stack n t) := by
  unfold stackStep
  by_cases opening : t.lexeme = .mark kind.opening
  · rw [if_pos (isMark_of_eq opening)]
    exact at_.push here opening le
  · rw [isMark_eq_false opening]
    by_cases closing : t.lexeme = .mark kind.closing
    · rw [isMark_of_eq closing]
      exact at_.pop here closing
    · rw [isMark_eq_false closing]
      exact at_.keep here opening closing

end StackAt

/-- What the pass has met before index `n`: the stacks of the open brackets, and a table that has the closing
bracket of every bracket that is closed before `n`. -/
structure BracketsAt (ts : List Token) (n : Nat) (met : Brackets) : Prop where
  stack : ∀ kind, StackAt kind ts 0 n (met.waiting kind)
  size : met.closers.length = ts.length
  closed_iff : ∀ b j, met.closers[b]? = some (some j) ↔
    j < n ∧ ∃ kind, OpensGroup kind ts b ∧ IsLeast {j | Surplus kind ts b j} j

theorem bracketsAt_zero (ts : List Token) : BracketsAt ts 0 (bracketsBefore ts 0) where
  stack kind := stackAt_nil kind ts 0
  size := List.length_replicate
  closed_iff b j := by simp [bracketsBefore, List.getElem?_replicate]

/-- The bracket that one more token closes, if any, is on top of the stack of its kind. -/
theorem BracketsAt.closes_here_iff {met : Brackets} (before : BracketsAt ts n met) (here : ts[n]? = some t) :
    (t.closes?.bind fun kind => (met.waiting kind).head?) = some b ↔
      ∃ kind, OpensGroup kind ts b ∧ IsLeast {j | Surplus kind ts b j} n := by
  simp only [Option.bind_eq_some_iff, closes?_eq_some_iff]
  constructor
  · rintro ⟨kind, closing, top⟩
    obtain ⟨⟨-, openAt⟩, surplus⟩ := ((before.stack kind).head?_eq_some_iff here closing).mp top
    exact ⟨kind, openAt.opens, openAt.isLeast surplus⟩
  · rintro ⟨kind, opens, surplus, least⟩
    have openAt : OpenAt kind ts n b :=
      ⟨opens, surplus.behind, fun j lt earlier => Nat.not_le_of_lt lt (least earlier)⟩
    have closing := openAt.closing_of_surplus surplus here
    exact ⟨kind, closing,
      ((before.stack kind).head?_eq_some_iff here closing).mpr ⟨⟨Nat.zero_le b, openAt⟩, surplus⟩⟩

/-- What is closed before the next index is in the table already, or it is closed right here. -/
theorem BracketsAt.closed_succ_iff {met : Brackets} (before : BracketsAt ts n met) (here : ts[n]? = some t) :
    (j < n + 1 ∧ ∃ kind, OpensGroup kind ts b ∧ IsLeast {j | Surplus kind ts b j} j) ↔
      met.closers[b]? = some (some j) ∨
        j = n ∧ (t.closes?.bind fun kind => (met.waiting kind).head?) = some b := by
  rw [before.closed_iff, before.closes_here_iff here]
  constructor
  · rintro ⟨lt, closes⟩
    rcases Nat.lt_succ_iff_lt_or_eq.mp lt with earlier | rfl
    · exact .inl ⟨earlier, closes⟩
    · exact .inr ⟨rfl, closes⟩
  · rintro (⟨lt, closes⟩ | ⟨rfl, closes⟩)
    · exact ⟨Nat.lt_succ_of_lt lt, closes⟩
    · exact ⟨Nat.lt_succ_self j, closes⟩

theorem bracketsAt_succ {met : Brackets} (before : BracketsAt ts n met) (here : ts[n]? = some t) :
    BracketsAt ts (n + 1) (met.step n t) := by
  have waiting (kind : Bracket) : StackAt kind ts 0 (n + 1) ((met.step n t).waiting kind) :=
    (before.stack kind).step here (Nat.zero_le n)
  cases top : t.closes?.bind fun kind => (met.waiting kind).head? with
  | none =>
    have same : (met.step n t).closers = met.closers := by simp only [Brackets.step, top]
    refine ⟨waiting, same ▸ before.size, fun b j => ?_⟩
    rw [before.closed_succ_iff here, same, top]
    simp
  | some opener =>
    have set : (met.step n t).closers = met.closers.set opener (some n) := by simp only [Brackets.step, top]
    obtain ⟨kind, opens, surplus, least⟩ := (before.closes_here_iff here).mp top
    have short : opener < met.closers.length := by
      rw [before.size]
      exact opens.lt_length
    refine ⟨waiting, by rw [set, List.length_set, before.size], fun b j => ?_⟩
    rw [before.closed_succ_iff here, set, top, Option.some.injEq]
    by_cases same : opener = b
    · subst same
      -- an index that is closed at `n` is not closed before it
      have notBefore : met.closers[opener]? ≠ some (some j) := fun entry => by
        obtain ⟨lt, other, opensToo, earlier⟩ := (before.closed_iff opener j).mp entry
        obtain rfl := opensToo.kind_eq opens
        exact absurd (least earlier.1) (Nat.not_le_of_lt lt)
      rw [List.getElem?_set_self short]
      simp only [notBefore, false_or, and_true, Option.some.injEq]
      exact eq_comm
    · rw [List.getElem?_set_ne same]
      simp [same]

theorem bracketsAt (ts : List Token) (n : Nat) (le : n ≤ ts.length) : BracketsAt ts n (bracketsBefore ts n) := by
  induction n with
  | zero => exact bracketsAt_zero ts
  | succ n ih =>
    have here : ts[n]? = some ts[n] := List.getElem?_eq_getElem le
    rw [bracketsBefore, here]
    exact bracketsAt_succ (ih (Nat.le_of_succ_le le)) here

/-- The table has the closing bracket of every bracket that is closed, and nothing else. -/
theorem closers_eq_some_iff :
    (closers ts)[b]? = some (some j) ↔ ∃ kind, OpensGroup kind ts b ∧ IsLeast {j | Surplus kind ts b j} j := by
  rw [closers, (bracketsAt ts ts.length (Nat.le_refl _)).closed_iff]
  constructor
  · exact fun closes => closes.2
  · rintro ⟨kind, opens, least⟩
    exact ⟨least.1.inside, kind, opens, least⟩

theorem OpensGroup.closers_eq_some_iff (opens : OpensGroup kind ts b) :
    (closers ts)[b]? = some (some j) ↔ IsLeast {j | Surplus kind ts b j} j := by
  rw [Source.closers_eq_some_iff]
  constructor
  · rintro ⟨other, opensToo, least⟩
    obtain rfl := opensToo.kind_eq opens
    exact least
  · exact fun least => ⟨kind, opens, least⟩

theorem OpensGroup.closers_eq_none_iff (opens : OpensGroup kind ts b) :
    (closers ts)[b]? = some none ↔ ∀ j, ¬ Surplus kind ts b j := by
  constructor
  · intro missing j surplus
    obtain ⟨first, least⟩ := surplus.exists_isLeast
    have found := opens.closers_eq_some_iff.mpr least
    rw [missing] at found
    simp at found
  · intro never
    have size : (closers ts).length = ts.length := (bracketsAt ts ts.length (Nat.le_refl _)).size
    cases entry : (closers ts)[b]? with
    | none =>
      have short := List.getElem?_eq_none_iff.mp entry
      have inside := opens.lt_length
      omega
    | some value =>
      cases value with
      | none => rfl
      | some j => exact absurd (opens.closers_eq_some_iff.mp entry).1 (never j)

/-- The search behind an opening bracket ends at the index that the table has for it. -/
theorem OpensGroup.closerFrom_eq (opens : OpensGroup kind ts b) :
    closerFrom kind 0 (ts.drop (b + 1)) = ((closers ts)[b]?.bind id).map ts.drop := by
  cases search : closerFrom kind 0 (ts.drop (b + 1)) with
  | none =>
    rw [opens.closers_eq_none_iff.mpr (closerFrom_eq_none_iff.mp search)]
    rfl
  | some found =>
    obtain ⟨j, rfl, least⟩ := exists_isLeast_of_closerFrom search
    rw [opens.closers_eq_some_iff.mpr least]
    rfl

/-- Of two groups of one kind the second is inside the first or behind it. -/
theorem nested_or_apart (lt : a < c) (first : OpensGroup kind ts a) (second : OpensGroup kind ts c)
    (closesFirst : IsLeast {j | Surplus kind ts a j} b) (closesSecond : IsLeast {j | Surplus kind ts c j} d) :
    d < b ∨ b < c := by
  by_cases behind : b < c
  · exact .inr behind
  · -- at `c` the first group is open, so both brackets stand on the stack, the second on top
    have openAt : OpenAt kind ts c a := ⟨first, lt, fun j earlier surplus => by
      have := closesFirst.2 surplus
      omega⟩
    have stack := (bracketsAt ts c (Nat.le_of_lt second.lt_length)).stack kind
    obtain ⟨depth, below⟩ := List.getElem?_of_mem ((stack.mem_iff a).mpr ⟨Nat.zero_le a, openAt⟩)
    obtain ⟨t, here, opening⟩ := second
    have search := (stack.push here opening (Nat.zero_le c)).closes (depth + 1) a
      (by rwa [List.getElem?_cons_succ])
    rw [(closerFrom_eq_drop_iff.mpr closesFirst).1, Eq.comm] at search
    obtain ⟨inner, found, longer⟩ := closerFrom_lt search
    rw [(closerFrom_eq_drop_iff.mpr closesSecond).1] at found
    obtain rfl := Option.some.inj found
    simp only [List.length_drop] at longer
    exact .inl (by omega)

/-- No bracket closes two others. -/
theorem closers_injective (first : (closers ts)[a]? = some (some j)) (second : (closers ts)[b]? = some (some j)) :
    a = b := by
  obtain ⟨kind, opensFirst, leastFirst⟩ := closers_eq_some_iff.mp first
  obtain ⟨other, opensSecond, leastSecond⟩ := closers_eq_some_iff.mp second
  -- the closing bracket tells the kind
  obtain rfl : kind = other := by
    have here := List.getElem?_eq_getElem leastFirst.1.inside
    have closing := Surplus.closing_of_isLeast leastFirst here
    rw [Surplus.closing_of_isLeast leastSecond here] at closing
    by_contra different
    exact (Bracket.opening_ne different).2.2.2 (Lexeme.mark.inj closing).symm
  rcases Nat.lt_trichotomy a b with lt | same | gt
  · have apart := nested_or_apart lt opensFirst opensSecond leastFirst leastSecond
    have behind := leastSecond.1.behind
    omega
  · exact same
  · have apart := nested_or_apart gt opensSecond opensFirst leastSecond leastFirst
    have behind := leastFirst.1.behind
    omega

end Typeahead.Source
