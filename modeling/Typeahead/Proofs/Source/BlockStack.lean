import Typeahead.Proofs.Source.LocalsAt
import Typeahead.Proofs.Source.Matching

namespace Typeahead.Source

/-- The open blocks of a body whose brace stands at `opening`, behind the `n` tokens after it. -/
def blocksBehind (ts : List Token) (opening : Nat) : Nat → List Nat
  | 0 => [opening]
  | n + 1 =>
    match ts[opening + 1 + n]? with
    | some t => stackStep .brace (blocksBehind ts opening n) (opening + 1 + n) t
    | none => blocksBehind ts opening n

/-- The index at which the body of a brace ends: that of its closing brace, else behind the last token. -/
def bodyEnd (ts : List Token) (opening : Nat) : Nat := ((closers ts)[opening]?.bind id).getD ts.length

/-- The locals declared at the `n`-th token of a body. They hold to the end of the block on top of the stack. -/
def declaredAt (scan : Scan) (isStatic : Bool) (ts : List Token) (opening n : Nat) : List Variable :=
  let block := (blocksBehind ts opening n).headD opening
  match ts[opening + n]? with
  | some previous =>
    localsAt scan ⟨scan.closeOffset .brace (ts.drop (block + 1)), isStatic⟩ ts[opening + n - 1]? previous
      (ts.drop (opening + 1 + n))
  | none => []

variable {scan : Scan} {isStatic : Bool} {ts : List Token} {opening n i b : Nat} {brace t : Token}

theorem stackAt_blocksBehind (opens : OpensGroup .brace ts opening) (le : opening + 1 + n ≤ ts.length) :
    StackAt .brace ts opening (opening + 1 + n) (blocksBehind ts opening n) := by
  induction n with
  | zero =>
    obtain ⟨t, here, isOpening⟩ := opens
    exact (stackAt_nil .brace ts opening).push here isOpening (Nat.le_refl _)
  | succ n ih =>
    have here : ts[opening + 1 + n]? = some ts[opening + 1 + n] := List.getElem?_eq_getElem le
    rw [blocksBehind, here]
    exact (ih (Nat.le_of_succ_le le)).step here (by omega)

/-- Up to the end of its body a brace is open. -/
theorem OpensGroup.openAt (opens : OpensGroup .brace ts opening) (behind : opening < i) (le : i ≤ bodyEnd ts opening) :
    OpenAt .brace ts i opening := by
  refine ⟨opens, behind, fun j lt surplus => ?_⟩
  obtain ⟨close, least⟩ := surplus.exists_isLeast
  have before := least.2 surplus
  rw [bodyEnd, opens.closers_eq_some_iff.mpr least] at le
  simp only [Option.bind_some, id_eq, Option.getD_some] at le
  omega

theorem OpensGroup.bodyEnd_le (opens : OpensGroup .brace ts opening) : bodyEnd ts opening ≤ ts.length := by
  unfold bodyEnd
  cases entry : (closers ts)[opening]? with
  | none => simp
  | some value =>
    cases value with
    | none => simp
    | some j =>
      have inside := (opens.closers_eq_some_iff.mp entry).1.inside
      simpa using Nat.le_of_lt inside

/-- In a body the stack is not empty, and on top of it is the innermost open brace. -/
theorem top_blocksBehind (opens : OpensGroup .brace ts opening) (le : opening + 1 + n ≤ bodyEnd ts opening) :
    ∃ top outer, blocksBehind ts opening n = top :: outer ∧
      IsGreatest {b | OpenAt .brace ts (opening + 1 + n) b} top := by
  have stack := stackAt_blocksBehind opens (Nat.le_trans le opens.bodyEnd_le)
  have body := opens.openAt (by omega : opening < opening + 1 + n) le
  cases blocks : blocksBehind ts opening n with
  | nil =>
    have member := (stack.mem_iff opening).mpr ⟨Nat.le_refl _, body⟩
    simp [blocks] at member
  | cons top outer =>
    rw [blocks] at stack
    obtain ⟨behind, openAt⟩ := (stack.mem_iff top).mp (List.mem_cons_self ..)
    refine ⟨top, outer, rfl, openAt, fun b open_ => ?_⟩
    rcases Nat.lt_or_ge b opening with outside | inside
    · omega
    · rcases List.mem_cons.mp ((stack.mem_iff b).mpr ⟨inside, open_⟩) with rfl | below
      · exact Nat.le_refl _
      · exact Nat.le_of_lt ((List.pairwise_cons.mp stack.sorted).1 b below)

/-- The ends of the blocks on a stack. -/
def blockEnds (scan : Scan) (ts : List Token) (blocks : List Nat) : List Nat :=
  blocks.map fun b => scan.closeOffset .brace (ts.drop (b + 1))

theorem declaredAt_mark {c : Char} (here : ts[opening + 1 + n]? = some t) (isMark : t.lexeme = .mark c) :
    declaredAt scan isStatic ts opening n = [] := by
  unfold declaredAt
  rw [drop_of_getElem? here]
  split
  · exact localsAt_mark isMark
  · rfl

/-- The running scan stands at the `n`-th token of a body. It holds the ends of the blocks on the stack, apart from
that of the body, and the two tokens before; what stands in front of the brace of the body is never asked. -/
structure ScansAt (scan : Scan) (ts : List Token) (opening outer n : Nat) (ends : List Nat) (before : Option Token)
    (previous : Token) : Prop where
  stack : blockEnds scan ts (blocksBehind ts opening n) = ends ++ [outer]
  previous_eq : ts[opening + n]? = some previous
  before_eq : ∀ scope later, localsAt scan scope before previous later =
    localsAt scan scope ts[opening + n - 1]? previous later

namespace ScansAt

variable {ends : List Nat} {outer : Nat} {before : Option Token} {previous : Token}

theorem start (here : ts[opening]? = some brace) (isOpening : brace.lexeme = .mark '{') :
    ScansAt scan ts opening (scan.closeOffset .brace (ts.drop (opening + 1))) 0 [] none brace where
  stack := rfl
  previous_eq := here
  before_eq scope later := by simp [localsAt, isMark_of_eq isOpening]

theorem declaredAt_eq (at_ : ScansAt scan ts opening outer n ends before previous) :
    declaredAt scan isStatic ts opening n =
      localsAt scan ⟨ends.headD outer, isStatic⟩ before previous (ts.drop (opening + 1 + n)) := by
  have top : scan.closeOffset .brace (ts.drop ((blocksBehind ts opening n).headD opening + 1)) = ends.headD outer := by
    have stack := at_.stack
    cases blocks : blocksBehind ts opening n with
    | nil => simp [blocks, blockEnds] at stack
    | cons block below =>
      rw [blocks, blockEnds, List.map_cons] at stack
      cases ends with
      | nil => exact (List.cons.inj stack).1
      | cons stop ends => exact (List.cons.inj stack).1
  simp only [declaredAt, at_.previous_eq, top, at_.before_eq]

theorem next (at_ : ScansAt scan ts opening outer n ends before previous) (here : ts[opening + 1 + n]? = some t)
    {ends' : List Nat}
    (stack : blockEnds scan ts (stackStep .brace (blocksBehind ts opening n) (opening + 1 + n) t) = ends' ++ [outer]) :
    ScansAt scan ts opening outer (n + 1) ends' (some previous) t where
  stack := by rwa [blocksBehind, here]
  previous_eq := by rwa [← Nat.add_assoc, Nat.add_right_comm]
  before_eq scope later := by rw [← Nat.add_assoc, Nat.add_sub_cancel, at_.previous_eq]

/-- The scan declares what it declares at one token and goes on at the next, with the blocks that are open there. -/
theorem step (at_ : ScansAt scan ts opening outer n ends before previous) (opens : OpensGroup .brace ts opening)
    (within : opening + 1 + n < bodyEnd ts opening) (here : ts[opening + 1 + n]? = some t) (isStatic : Bool)
    (count : Nat) :
    ∃ ends', ScansAt scan ts opening outer (n + 1) ends' (some previous) t ∧
      localsFrom scan isStatic outer (count + 1) ends before previous (ts.drop (opening + 1 + n)) =
        declaredAt scan isStatic ts opening n ++
          localsFrom scan isStatic outer count ends' (some previous) t (ts.drop (opening + 1 + (n + 1))) := by
  rw [drop_of_getElem? here, ← Nat.add_assoc]
  by_cases isOpening : t.lexeme = .mark '{'
  · refine ⟨scan.closeOffset .brace (ts.drop (opening + 1 + n + 1)) :: ends, at_.next here ?_, ?_⟩
    · rw [stackStep, Bracket.opening, isMark_of_eq isOpening]
      exact congrArg _ at_.stack
    · rw [declaredAt_mark here isOpening, localsFrom, isMark_of_eq isOpening]
      rfl
  · by_cases isClosing : t.lexeme = .mark '}'
    · refine ⟨ends.tail, at_.next here ?_, ?_⟩
      · -- the brace of the body is not closed before its end, so another one is on top of it
        obtain ⟨top, below, blocks, -⟩ := top_blocksBehind (n := n + 1) opens (by omega)
        have popped : stackStep .brace (blocksBehind ts opening n) (opening + 1 + n) t =
            (blocksBehind ts opening n).tail := by
          rw [stackStep, Bracket.opening, Bracket.closing, isMark_eq_false isOpening, isMark_of_eq isClosing]
          rfl
        rw [blocksBehind, here] at blocks
        simp only [popped] at blocks
        have tails : blockEnds scan ts (blocksBehind ts opening n).tail = (ends ++ [outer]).tail := by
          rw [← at_.stack, blockEnds, blockEnds, List.map_tail]
        rw [popped, tails]
        cases ends with
        | nil =>
          rw [blocks] at tails
          simp [blockEnds] at tails
        | cons stop ends => rfl
      · rw [declaredAt_mark here isClosing, localsFrom, isMark_eq_false isOpening, isMark_of_eq isClosing]
        rfl
    · refine ⟨ends, at_.next here ?_, ?_⟩
      · rw [stackStep, Bracket.opening, Bracket.closing, isMark_eq_false isOpening, isMark_eq_false isClosing]
        exact at_.stack
      · rw [at_.declaredAt_eq, localsFrom, isMark_eq_false isOpening, isMark_eq_false isClosing, drop_of_getElem? here]
        rfl

/-- The scan from the `n`-th token on. -/
theorem run (at_ : ScansAt scan ts opening outer n ends before previous) (opens : OpensGroup .brace ts opening)
    {count : Nat} (within : opening + 1 + n + count ≤ bodyEnd ts opening) :
    localsFrom scan isStatic outer count ends before previous (ts.drop (opening + 1 + n)) =
      (List.range' n count).flatMap (declaredAt scan isStatic ts opening) := by
  induction count generalizing n ends before previous with
  | zero => simp [localsFrom]
  | succ count ih =>
    have short : opening + 1 + n < ts.length := by
      have := opens.bodyEnd_le
      omega
    obtain ⟨ends', next, first⟩ :=
      at_.step opens (by omega) (List.getElem?_eq_getElem short) isStatic count
    rw [first, ih next (by omega), List.range'_succ, List.flatMap_cons]

end ScansAt

theorem OpensGroup.bodyEnd_gt (opens : OpensGroup .brace ts opening) : opening < bodyEnd ts opening := by
  unfold bodyEnd
  cases entry : (closers ts)[opening]?.bind id with
  | none => exact opens.lt_length
  | some j =>
    obtain ⟨value, found, rfl⟩ := Option.bind_eq_some_iff.mp entry
    exact (opens.closers_eq_some_iff.mp found).1.behind

/-- The locals of a block: at each token before its end those declared there, to the end of the innermost block. -/
theorem blockLocals_eq (here : ts[opening]? = some brace) (isOpening : brace.lexeme = .mark '{') :
    blockLocals scan isStatic brace (ts.drop (opening + 1)) =
      (List.range (bodyEnd ts opening - (opening + 1))).flatMap (declaredAt scan isStatic ts opening) := by
  have opens : OpensGroup .brace ts opening := ⟨brace, here, isOpening⟩
  have body := opens.bodyEnd_gt
  have count : (ts.drop (opening + 1)).length - (fromCloser .brace (ts.drop (opening + 1))).length =
      bodyEnd ts opening - (opening + 1) := by
    rw [fromCloser, opens.closerFrom_eq, bodyEnd]
    cases entry : (closers ts)[opening]?.bind id with
    | none => simp
    | some j =>
      obtain ⟨value, found, rfl⟩ := Option.bind_eq_some_iff.mp entry
      have inside := (opens.closers_eq_some_iff.mp found).1.inside
      simp only [Option.map_some, Option.getD_some, List.length_drop]
      omega
  simp only [blockLocals, count, List.range_eq_range']
  exact (ScansAt.start here isOpening).run (n := 0) opens (by omega)

/-- A table is exact for every kind of bracket, the other kinds left out of account. -/
structure MatchesBrackets (ts : List Token) (table : List (Option Nat)) : Prop where
  closed_iff : ∀ kind i, OpensGroup kind ts i → ∀ j, table[i]? = some (some j) ↔ IsLeast {j | Surplus kind ts i j} j
  unclosed_iff : ∀ kind i, OpensGroup kind ts i → (table[i]? = some none ↔ ∀ j, ¬ Surplus kind ts i j)
  nested_or_apart : ∀ kind a b c d, a < c → OpensGroup kind ts a → OpensGroup kind ts c → table[a]? = some (some b) →
    table[c]? = some (some d) → d < b ∨ b < c
  once : ∀ a b j : Nat, table[a]? = some (some j) → table[b]? = some (some j) → a = b

/-- The scan of a body keeps the innermost open brace on top of its stack, and declares each local to the end of
the block that this brace opens. -/
structure KeepsInnermost (ts : List Token) (opening : Nat) : Prop where
  top : ∀ n, opening + 1 + n ≤ bodyEnd ts opening → ∃ block outer, blocksBehind ts opening n = block :: outer ∧
    IsGreatest {b | OpenAt .brace ts (opening + 1 + n) b} block
  locals : ∀ scan isStatic brace, ts[opening]? = some brace →
    blockLocals scan isStatic brace (ts.drop (opening + 1)) =
      (List.range (bodyEnd ts opening - (opening + 1))).flatMap (declaredAt scan isStatic ts opening)

theorem matchesBrackets_closers (ts : List Token) : MatchesBrackets ts (closers ts) where
  closed_iff _ _ opens _ := opens.closers_eq_some_iff
  unclosed_iff _ _ opens := opens.closers_eq_none_iff
  nested_or_apart _ _ _ _ _ lt first second closesFirst closesSecond :=
    nested_or_apart lt first second (first.closers_eq_some_iff.mp closesFirst)
      (second.closers_eq_some_iff.mp closesSecond)
  once _ _ _ := closers_injective

theorem OpensGroup.keepsInnermost (opens : OpensGroup .brace ts opening) : KeepsInnermost ts opening where
  top _ := top_blocksBehind opens
  locals scan isStatic brace here := by
    obtain ⟨t, same, isOpening⟩ := opens
    obtain rfl := Option.some.inj (here.symm.trans same)
    exact blockLocals_eq here isOpening

/-- For any tokens, with brackets closed, unclosed, stray or interleaved: the table of one pass is exact, the
search behind an opening bracket finds what the table has for it, and in the body of any brace, closed or not,
the innermost open brace is on top of the stack of blocks. -/
theorem brackets_exact (ts : List Token) :
    MatchesBrackets ts (closers ts) ∧
      (∀ kind i, OpensGroup kind ts i →
        closerFrom kind 0 (ts.drop (i + 1)) = ((closers ts)[i]?.bind id).map ts.drop) ∧
      ∀ opening, OpensGroup .brace ts opening → KeepsInnermost ts opening :=
  ⟨matchesBrackets_closers ts, fun _ _ opens => opens.closerFrom_eq, fun _ opens => opens.keepsInnermost⟩

/-- In `{ ( { ) }` the outer brace is never closed, and at the last token the inner one is innermost. -/
theorem brackets_exact_interleaved :
    let ts : List Token := [⟨.mark '{', 0⟩, ⟨.mark '(', 1⟩, ⟨.mark '{', 2⟩, ⟨.mark ')', 3⟩, ⟨.mark '}', 4⟩]
    closers ts = [none, some 3, some 4, none, none] ∧ (∀ j, ¬ Surplus .brace ts 0 j) ∧
      IsLeast {j | Surplus .paren ts 1 j} 3 ∧ IsGreatest {b | OpenAt .brace ts 4 b} 2 := by
  intro ts
  have table : closers ts = [none, some 3, some 4, none, none] := by decide
  have body : OpensGroup .brace ts 0 := ⟨_, rfl, rfl⟩
  have paren : OpensGroup .paren ts 1 := ⟨_, rfl, rfl⟩
  obtain ⟨exact_, -, innermost⟩ := brackets_exact ts
  have unclosed : (closers ts)[0]? = some none := by rw [table]; rfl
  have ends : bodyEnd ts 0 = 5 := by rw [bodyEnd, unclosed]; rfl
  obtain ⟨block, outer, stack, greatest⟩ := (innermost 0 body).top 3 (by rw [ends]; decide)
  have top : blocksBehind ts 0 3 = [2, 0] := by decide
  obtain ⟨rfl, -⟩ := List.cons.inj (top.symm.trans stack)
  exact ⟨table, (exact_.unclosed_iff .brace 0 body).mp unclosed,
    (exact_.closed_iff .paren 1 paren 3).mp (by rw [table]; rfl), greatest⟩

end Typeahead.Source
