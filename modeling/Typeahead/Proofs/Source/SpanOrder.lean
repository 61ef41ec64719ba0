import Typeahead.Proofs.Source.BlockStack
import Typeahead.Proofs.Source.SpanBounds
import Typeahead.Proofs.Source.TokenOrder

namespace Typeahead.Source

open Text

variable {scan : Scan} {ts us later rest : List Token} {t name : Token} {kind : Bracket} {scope : LocalScope}

/-- A span is not empty when it is made of two offsets in order, and only then. -/
theorem Span.lt_iff {start stop : Nat} : (Span.of start stop).start < (Span.of start stop).stop ↔ start < stop := by
  simp only [Span.of]
  omega

/-- The tokens stand one behind the other and in front of the end of the scan. -/
structure InScan (scan : Scan) (ts : List Token) : Prop where
  sorted : ts.Pairwise (·.start < ·.start)
  before : ∀ t ∈ ts, t.start < scan.stop

namespace InScan

theorem of_suffix (order : InScan scan ts) (suffix : later <:+ ts) : InScan scan later :=
  ⟨order.sorted.sublist suffix.sublist, fun t member => order.before t (suffix.subset member)⟩

/-- What comes later in the tokens, or the end of the scan, is behind the first token. -/
theorem lt_offsetOf (order : InScan scan (t :: ts)) (suffix : later <:+ ts) : t.start < scan.offsetOf later := by
  cases later with
  | nil => exact order.before t (List.mem_cons_self ..)
  | cons u later => exact (List.pairwise_cons.mp order.sorted).1 u (suffix.subset (List.mem_cons_self ..))

end InScan

/-- Seen from a statement, the tokens stand behind a group of parentheses or square brackets that is opened in the
block of the statement and closed behind the brace that closes this block. -/
structure PastBlock (statement ts : List Token) (kind : Bracket) (opening closing group : Token)
    (inside behind later : List Token) : Prop where
  notBrace : kind ≠ .brace
  isOpening : opening.lexeme = .mark kind.opening
  opens : opening :: inside <:+ statement
  ends : closerFrom .brace 0 statement = some (closing :: behind)
  within : closing :: behind <:+ inside
  closes : closerFrom kind 0 inside = some (group :: later)
  reaches : group :: later <:+ behind
  past : ts <:+ later

/-- The tokens stand behind a group that is opened in the block of the statement and closed behind its end. -/
def BehindBlock (statement ts : List Token) : Prop :=
  ∃ kind opening closing group inside behind later,
    PastBlock statement ts kind opening closing group inside behind later

/-- The declarators of a statement go on in its block, or behind the end of the block. -/
inductive Reaches (statement ts : List Token) : Prop
  | inBlock (depth : Nat) (same : closerFrom .brace 0 statement = closerFrom .brace depth ts)
  | behindBlock (behind : BehindBlock statement ts)

/-- A variable declared in a statement has a span between offsets in order, unless it is a local whose name stands
behind the end of the block. -/
def DeclaredFrom (statement : List Token) (v : Variable) : Prop :=
  v.span.start < v.span.stop ∨
    v.kind = .localVariable ∧ ∃ name rest, BehindBlock statement (name :: rest) ∧ v.span = ⟨name.start, name.start⟩

theorem BehindBlock.of_suffix (behind : BehindBlock us ts) (suffix : later <:+ ts) : BehindBlock us later := by
  obtain ⟨kind, opening, closing, group, inside, after, back, past⟩ := behind
  exact ⟨kind, opening, closing, group, inside, after, back, { past with past := suffix.trans past.past }⟩

namespace Reaches

theorem of_search (reaches : Reaches us ts) (suffix : later <:+ ts)
    (search : ∀ depth, closerFrom .brace depth ts = closerFrom .brace depth later) : Reaches us later := by
  cases reaches with
  | inBlock depth same => exact .inBlock depth (same.trans (search depth))
  | behindBlock behind => exact .behindBlock (behind.of_suffix suffix)

theorem of_flat (reaches : Reaches us ts) (flat : Flat ts later) : Reaches us later :=
  reaches.of_search flat.suffix fun _ => flat.closerFrom_eq (by decide)

/-- A group of parentheses or square brackets may reach over the end of the block. -/
theorem afterGroup (reaches : Reaches us (t :: ts)) (suffix : t :: ts <:+ us) (notBrace : kind ≠ .brace)
    (isOpening : t.lexeme = .mark kind.opening) {group : Token}
    (closes : closerFrom kind 0 ts = some (group :: later)) : Reaches us later := by
  have found : group :: later <:+ ts := closerFrom_suffix closes
  have after : later <:+ ts := (List.suffix_cons group later).trans found
  cases reaches with
  | behindBlock behind => exact .behindBlock (behind.of_suffix (after.trans (List.suffix_cons t ts)))
  | inBlock depth same =>
    obtain ⟨notOpening, notClosing, -⟩ := Bracket.opening_ne notBrace
    rw [closerFrom_other (by simp [isOpening, notOpening]) (by simp [isOpening, notClosing])] at same
    have cases := closerFrom_suffix_cases .brace depth after
    rcases cases with ⟨deeper, further⟩ | ⟨closing, rest, ended, behind⟩
    · exact .inBlock deeper (same.trans further)
    · have within : closing :: rest <:+ ts := closerFrom_suffix ended
      -- the two closing brackets are of different kinds, so the group is not closed by the end of the block
      have reaches : group :: later <:+ rest := by
        rcases Nat.lt_or_ge rest.length (group :: later).length with short | long
        · have length : (closing :: rest).length = (group :: later).length := by
            have le := behind.length_le
            simp only [List.length_cons] at short ⊢
            omega
          have same := (List.suffix_of_suffix_length_le within found (Nat.le_of_eq length)).eq_of_length length
          obtain ⟨rfl, -⟩ := List.cons.inj same
          have isBrace := isClosing_of_closerFrom ended
          rw [isClosing_of_closerFrom closes] at isBrace
          exact absurd (Lexeme.mark.inj isBrace) (Bracket.opening_ne notBrace).2.2.2
        · exact List.suffix_of_suffix_length_le found ((List.suffix_cons closing rest).trans within) long
      exact .behindBlock ⟨kind, t, closing, group, ts, rest, later,
        notBrace, isOpening, suffix, same.trans ended, within, closes, reaches, List.suffix_rfl⟩

/-- What follows an expression, when anything does, is reached from the expression. -/
theorem expressionEnd (reaches : Reaches us ts) (suffix : ts <:+ us) (more : expressionEnd ts ≠ []) :
    Reaches us (Source.expressionEnd ts) := by
  fun_induction Source.expressionEnd ts with
  | case1 => exact absurd rfl more
  | case2 t ts kind opens ih =>
    have isOpening := isOpening_of_opens? opens
    have after : afterCloser kind ts <:+ ts := afterCloser_suffix kind ts
    have inside : afterCloser kind ts <:+ us := after.trans ((List.suffix_cons t ts).trans suffix)
    cases search : closerFrom kind 0 ts with
    | none =>
      -- nothing follows a group that is never closed
      have nothing : afterCloser kind ts = [] := by rw [afterCloser, fromCloser, search]; rfl
      rw [nothing, Source.expressionEnd] at more
      exact absurd rfl more
    | some found =>
      obtain ⟨group, later, rfl⟩ := List.exists_cons_of_ne_nil (closerFrom_ne_nil search)
      have behind : afterCloser kind ts = later := by rw [afterCloser, fromCloser, search]; rfl
      refine ih ?_ inside more
      by_cases brace : kind = .brace
      · subst brace
        refine reaches.of_search (after.trans (List.suffix_cons t ts)) fun depth => ?_
        rw [closerFrom_opening isOpening, behind, ← Nat.zero_add depth, closerFrom_add, search]
        simp
      · rw [behind]
        exact reaches.afterGroup suffix brace isOpening search
  | case3 t ts => exact reaches
  | case4 t ts plain other ih =>
    have notOpening : t.lexeme ≠ .mark Bracket.brace.opening := fun isOpening => by
      simp [opens?_opening .brace isOpening] at plain
    have notClosing : t.lexeme ≠ .mark Bracket.brace.closing := fun isClosing => by
      have closes : t.isMark '}' = true := isMark_of_eq isClosing
      simp [Token.closesAny, closes] at other
    refine ih ?_ ((List.suffix_cons t ts).trans suffix) more
    exact reaches.of_search (List.suffix_cons t ts) fun depth => closerFrom_other notOpening notClosing

theorem of_leadsTo (leads : LeadsTo us ts) : Reaches us ts := by
  induction leads with
  | here => exact .inBlock 0 rfl
  | flat _ flat ih => exact ih.of_flat flat
  | value leads ends ih => exact ih.expressionEnd leads.suffix ends

end Reaches

/-- A local of a block holds to the end of the block, and its name is in front of that or behind it. -/
theorem LocalOrigin.declaredFrom {v : Variable} (origin : LocalOrigin scan scope us v) (order : InScan scan us)
    (stop : scope.stop = scan.closeOffset .brace us) : DeclaredFrom us v := by
  cases origin with
  | inHeader typed declares ends =>
    exact .inl (Span.lt_iff.mpr ((order.of_suffix declares).lt_offsetOf ends))
  | @inBlock name rest text typed leads isName =>
    have here := order.of_suffix leads.suffix
    cases Reaches.of_leadsTo leads with
    | inBlock depth same =>
      have flat : Flat (name :: rest) rest := flat_name isName rest
      have ends : scope.stop = scan.offsetOf ((closerFrom .brace depth rest).getD []) := by
        rw [stop, Scan.closeOffset, fromCloser, same, flat.closerFrom_eq (by decide)]
      have behind : (closerFrom .brace depth rest).getD [] <:+ rest := by
        cases search : closerFrom .brace depth rest with
        | none => exact List.nil_suffix
        | some found => exact closerFrom_suffix search
      refine .inl (Span.lt_iff.mpr ?_)
      rw [ends]
      exact here.lt_offsetOf behind
    | behindBlock behind =>
      refine .inr ⟨rfl, name, rest, behind, ?_⟩
      obtain ⟨kind, opening, closing, group, inside, after, later, past⟩ := behind
      have ends : scope.stop = closing.start := by rw [stop, Scan.closeOffset, fromCloser, past.ends]; rfl
      have block := order.of_suffix (past.within.trans ((List.suffix_cons opening inside).trans past.opens))
      have further : name :: rest <:+ after := past.past.trans ((List.suffix_cons group later).trans past.reaches)
      have lt : closing.start < name.start := block.lt_offsetOf further
      simp only [LocalScope.variable, Span.of, ends, Nat.max_eq_right (Nat.le_of_lt lt)]

/-- In a block a group of parentheses or square brackets is opened that is closed behind the brace that closes the
block: `{ ( } )`. -/
structure Interleaves (ts : List Token) (kind : Bracket) (brace close opening group : Nat) : Prop where
  notBrace : kind ≠ .brace
  block : OpensGroup .brace ts brace
  blockCloses : (closers ts)[brace]? = some (some close)
  opens : OpensGroup kind ts opening
  closes : (closers ts)[opening]? = some (some group)
  inside : brace < opening
  before : opening < close
  behind : close < group

/-- The name at an offset stands behind a group that is closed behind the block in which it is opened. -/
def NamedBehindBlock (ts : List Token) (start : Nat) : Prop :=
  ∃ kind brace close opening group n name, Interleaves ts kind brace close opening group ∧ group < n ∧
    ts[n]? = some name ∧ name.start = start

/-- Behind the block of a statement, told by indices: `brace` opens the innermost block at the statement. -/
theorem BehindBlock.named {i brace : Nat} (behind : BehindBlock (ts.drop i) (name :: rest))
    (block : OpensGroup .brace ts brace) (start : brace < i)
    (innermost : closerFrom .brace 0 (ts.drop (brace + 1)) = closerFrom .brace 0 (ts.drop i)) :
    NamedBehindBlock ts name.start := by
  obtain ⟨kind, opening, closing, group, inside, after, later, past⟩ := behind
  have opens := past.opens.trans (List.drop_suffix i ts)
  have within := past.within.trans ((List.suffix_cons opening inside).trans opens)
  have reaches := past.reaches.trans ((List.suffix_cons closing after).trans within)
  have further := past.past.trans ((List.suffix_cons group later).trans reaches)
  obtain ⟨g, atOpening, insideEq, gLength⟩ := exists_index_of_suffix opens
  obtain ⟨c, atClosing, afterEq, cLength⟩ := exists_index_of_suffix within
  obtain ⟨h, atGroup, laterEq, hLength⟩ := exists_index_of_suffix reaches
  obtain ⟨n, atName, -, nLength⟩ := exists_index_of_suffix further
  -- each of the four stands behind the one before it, since fewer tokens follow it
  have statement := past.opens.length_le
  have first := past.within.length_le
  have second := past.reaches.length_le
  have third := past.past.length_le
  simp only [List.length_drop, List.length_cons] at statement first second third
  have group_ : OpensGroup kind ts g := ⟨opening, atOpening, past.isOpening⟩
  have blockCloses : (closers ts)[brace]? = some (some c) := by
    refine block.closers_eq_some_iff.mpr (closerFrom_eq_drop_iff.mp ⟨?_, by omega⟩)
    rw [innermost, past.ends, drop_of_getElem? atClosing, afterEq]
  have groupCloses : (closers ts)[g]? = some (some h) := by
    refine group_.closers_eq_some_iff.mpr (closerFrom_eq_drop_iff.mp ⟨?_, by omega⟩)
    rw [insideEq, past.closes, drop_of_getElem? atGroup, laterEq]
  have interleaves : Interleaves ts kind brace c g h :=
    ⟨past.notBrace, block, blockCloses, group_, groupCloses, by omega, by omega, by omega⟩
  exact ⟨kind, brace, c, g, h, n, name, interleaves, by omega, atName, rfl⟩

/-- A span is between offsets in order, unless it is that of a local named behind its block; that one is empty. -/
def InOrderBut (ts : List Token) (v : Variable) : Prop :=
  v.span.start < v.span.stop ∨
    v.kind = .localVariable ∧ v.span.start = v.span.stop ∧ NamedBehindBlock ts v.span.start

theorem Span.FromToken.lt {s : Span} (span : s.FromToken scan ts) (order : InScan scan ts) : s.start < s.stop := by
  obtain ⟨t, rest, last, starts, ends, rfl⟩ := span
  exact Span.lt_iff.mpr ((order.of_suffix starts).lt_offsetOf ends)

theorem Variable.Origin.inOrderBut {fields : Span} {v : Variable} (origin : v.Origin scan fields ts)
    (order : InScan scan ts) (body : ts ≠ [] → fields.start < fields.stop) : InOrderBut ts v := by
  cases origin with
  | field isName holds =>
    obtain ⟨name, member, -⟩ := isName
    exact .inl (holds ▸ body (List.ne_nil_of_mem member))
  | @parameter name code _ _ behind holds =>
    refine .inl ?_
    rw [holds]
    exact Span.lt_iff.mpr (Nat.lt_of_le_of_lt (Nat.min_le_right ..) (behind.lt order))
  | @inBlock brace inside us _ block opens within innermost origin =>
    have statement : us <:+ ts := within.trans ((List.suffix_cons brace inside).trans block)
    rcases origin.declaredFrom (order.of_suffix statement) rfl with inOrder | ⟨isLocal, name, rest, behind, span⟩
    · exact .inl inOrder
    · obtain ⟨b, atBrace, rfl, length⟩ := exists_index_of_suffix block
      have drop : us = ts.drop (ts.length - us.length) := List.suffix_iff_eq_drop.mp statement
      have short := within.length_le
      simp only [List.length_drop] at short length
      rw [drop] at behind innermost
      refine .inr ⟨isLocal, by rw [span], ?_⟩
      rw [span]
      exact behind.named ⟨brace, atBrace, opens⟩ (by omega) innermost

/-- All spans of some declarations are between offsets in order, apart from those of locals named behind their block. -/
structure Declarations.Ordered (ts : List Token) (ds : Declarations) : Prop where
  vars : ∀ v ∈ ds.vars, InOrderBut ts v
  methods : ∀ m ∈ ds.methods, m.span.start < m.span.stop
  properties : ∀ p ∈ ds.properties, p.span.start < p.span.stop
  bodies : ∀ b ∈ ds.bodies, b.span.start < b.span.stop

theorem Declarations.ReadFrom.ordered {fields : Span} {ds : Declarations} (read : ds.ReadFrom scan fields ts)
    (order : InScan scan ts) (body : ts ≠ [] → fields.start < fields.stop) : ds.Ordered ts where
  vars v member := (read.vars v member).inOrderBut order body
  methods m member := (read.methods m member).2.lt order
  properties p member := (read.properties p member).2.lt order
  bodies b member := (read.bodies b member).lt order

/-- A type of the text, found around a caret or by its name. -/
def IsTypeRegion (text : List Char) (r : TypeRegion) : Prop :=
  (∃ caret, enclosingType text caret = some r) ∨ ∃ name, typeNamed text name = some r

variable {text : List Char} {r : TypeRegion}

theorem TypeRegion.bodyStart_le_of_at? {p : Place} {unclosedEnd : Nat} (member : p ∈ places text)
    (found : TypeRegion.at? unclosedEnd p = some r) : r.bodyStart ≤ r.stop ∧ r.bodyStart ≤ utf8Length text := by
  obtain ⟨whole, offset⟩ := mem_places member
  unfold TypeRegion.at? at found
  split at found
  · simp at found
  · next header brace body split_ =>
    obtain ⟨rest, isBrace, -⟩ := eq_append_of_breakFirst split_
    simp only [beq_iff_eq] at isBrace
    split at found
    · simp at found
    · obtain rfl := Option.some.inj found
      have one : ('{' : Char).utf8Size = 1 := rfl
      have bodyStart : p.offset + utf8Length header + 1 = utf8Length (p.before.reverse ++ header ++ ['{']) := by
        rw [offset]
        simp only [utf8Length_append, utf8Length_cons, utf8Length_nil, one]
      refine ⟨?_, ?_⟩
      · simp only
        cases closes : closingBrace (p.offset + utf8Length header + 1) 1 body with
        | none => exact Nat.le_max_right _ _
        | some stop =>
          rw [bodyStart] at closes ⊢
          exact (isBoundary_closingBrace [] closes).2
      · rw [whole, rest, isBrace, bodyStart]
        simp only [utf8Length_append, utf8Length_cons, utf8Length_nil]
        omega

theorem IsTypeRegion.bodyStart_le (region : IsTypeRegion text r) :
    r.bodyStart ≤ r.stop ∧ r.bodyStart ≤ utf8Length text := by
  rcases region with ⟨caret, around⟩ | ⟨name, named⟩
  · obtain ⟨p, member, inside⟩ := List.exists_of_findSome?_eq_some around
    have place : p ∈ places text := (List.mem_filter.mp (List.mem_filter.mp (List.mem_reverse.mp member)).1).1
    exact TypeRegion.bodyStart_le_of_at? place (Option.filter_eq_some_iff.mp inside).1
  · obtain ⟨p, member, inside⟩ := List.exists_of_findSome?_eq_some named
    exact TypeRegion.bodyStart_le_of_at? (List.mem_filter.mp member).1 (Option.filter_eq_some_iff.mp inside).1

/-- The tokens of a body start in it. -/
theorem start_of_mem_bodyTokens (starts : r.bodyStart ≤ r.stop) (inText : r.bodyStart ≤ utf8Length text) :
    ∀ t ∈ bodyTokens text r, r.bodyStart ≤ t.start ∧ t.start < (bodyScan text r).stop := by
  intro t member
  have size : utf8Length (between r.bodyStart (bodyScan text r).stop text) ≤ (bodyScan text r).stop - r.bodyStart :=
    utf8Length_upTo_le _ _
  have start := start_of_mem_tokensFrom t member
  have stop : r.bodyStart ≤ (bodyScan text r).stop := Nat.le_min.mpr ⟨starts, inText⟩
  omega

/-- Every span of the declarations of a type is inside the body of the type. It is between offsets in order, with the
exception of a local that is named behind the brace which closes its block, in the rest of a statement that a group
of parentheses or square brackets takes past this brace: its span is made of offsets out of order. -/
theorem Declarations.spans_ofType (region : IsTypeRegion text r) :
    r.bodyStart ≤ r.stop ∧
      (Declarations.ofType text r).BoundedBy (fun offset => r.bodyStart ≤ offset ∧ offset ≤ r.stop) ∧
      (Declarations.ofType text r).Ordered (bodyTokens text r) := by
  obtain ⟨starts, inText⟩ := region.bodyStart_le
  have tokens := start_of_mem_bodyTokens starts inText
  have scanned : (bodyScan text r).stop ≤ r.stop := Nat.min_le_left ..
  have stop : r.bodyStart ≤ (bodyScan text r).stop := Nat.le_min.mpr ⟨starts, inText⟩
  have placed :
      Placed (fun offset => r.bodyStart ≤ offset ∧ offset ≤ r.stop) (bodyScan text r) (bodyTokens text r) := by
    refine ⟨⟨stop, scanned⟩, fun t member => ?_⟩
    have := tokens t member
    omega
  have order : InScan (bodyScan text r) (bodyTokens text r) :=
    ⟨tokensFrom_sorted _ _, fun t member => (tokens t member).2⟩
  have read := Declarations.readFrom_ofType text r
  refine ⟨starts, read.boundedBy placed ?_, read.ordered order fun some_ => ?_⟩
  · exact Span.boundedBy_of ⟨Nat.le_refl _, starts⟩ ⟨starts, Nat.le_refl _⟩
  · obtain ⟨t, member⟩ := List.exists_mem_of_ne_nil _ some_
    have := tokens t member
    exact Span.lt_iff.mpr (by omega)

/-- The parenthesis in the initializer of `a` is closed behind the block, and `b` is named behind it. -/
def pastBlockText : List Char := "class A\x7bvoid M()\x7bint a=(\x7d),b;\x7d\x7d".toList

def pastBlockRegion : TypeRegion :=
  { start := 0, bodyStart := 8, stop := 29, name := "A", bases := [], isStatic := false }

theorem Declarations.spans_ofType_pastBlock :
    typeNamed pastBlockText "A" = some pastBlockRegion ∧
      (Declarations.ofType pastBlockText pastBlockRegion).BoundedBy (fun offset => 8 ≤ offset ∧ offset ≤ 29) ∧
      (∀ m ∈ (Declarations.ofType pastBlockText pastBlockRegion).methods, m.span.start < m.span.stop) ∧
      NamedBehindBlock (bodyTokens pastBlockText pastBlockRegion) 27 := by
  have found : typeNamed pastBlockText "A" = some pastBlockRegion := by decide +kernel
  obtain ⟨-, inBody, order⟩ := Declarations.spans_ofType (.inr ⟨"A", found⟩)
  have declared : ⟨"b", "int", ⟨27, 27⟩, false, .localVariable, none⟩ ∈
      (Declarations.ofType pastBlockText pastBlockRegion).vars := by decide +kernel
  refine ⟨found, inBody, order.methods, ?_⟩
  rcases order.vars _ declared with inOrder | ⟨-, -, behind⟩
  · exact absurd inOrder (Nat.lt_irrefl 27)
  · exact behind

/-- The block of the method ends at offset 24, and the local `b` at offset 27 is given the span from there back to
the end of the block. -/
theorem Declarations.span_of_local_behind_block :
    enclosingType pastBlockText 20 = some pastBlockRegion ∧
      (Declarations.ofType pastBlockText pastBlockRegion).bodies = [⟨Span.of 16 24, false⟩] ∧
      (Declarations.ofType pastBlockText pastBlockRegion).vars =
        [LocalScope.variable ⟨24, false⟩ "a" 21 ("int", none), LocalScope.variable ⟨24, false⟩ "b" 27 ("int", none)] ∧
      24 < 27 := by
  decide +kernel

end Typeahead.Source
