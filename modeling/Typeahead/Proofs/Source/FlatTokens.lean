import Typeahead.Proofs.Source.Nested

namespace Typeahead.Source

/-- The later tokens end the earlier ones, and what is between has no brace and no parenthesis. -/
def Flat (ts later : List Token) : Prop :=
  ∃ front, front ++ later = ts ∧ ∀ t ∈ front, t.lexeme ∉ ['{', '}', '(', ')'].map Lexeme.mark

variable {ts middle later : List Token} {t : Token} {c : Char} {text : String} {kind : Bracket} {depth : Nat}

namespace Flat

theorem refl (ts : List Token) : Flat ts ts := ⟨[], rfl, by simp⟩

theorem trans (first : Flat ts middle) (second : Flat middle later) : Flat ts later := by
  obtain ⟨front, rfl, bare⟩ := first
  obtain ⟨more, rfl, bareToo⟩ := second
  refine ⟨front ++ more, List.append_assoc .., fun t member => ?_⟩
  exact (List.mem_append.mp member).elim (bare t) (bareToo t)

theorem suffix (flat : Flat ts later) : later <:+ ts := by
  obtain ⟨front, rfl, -⟩ := flat
  exact List.suffix_append front later

theorem mark (isMark : t.isMark c = true) (bare : c ∉ ['{', '}', '(', ')']) (ts : List Token) : Flat (t :: ts) ts := by
  refine ⟨[t], rfl, fun u member => ?_⟩
  rw [List.mem_singleton.mp member, lexeme_of_isMark isMark]
  simpa using bare

theorem word (isWord : t.word? = some text) (ts : List Token) : Flat (t :: ts) ts := by
  refine ⟨[t], rfl, fun u member => ?_⟩
  rw [List.mem_singleton.mp member]
  intro isMark
  obtain ⟨c, -, lexeme⟩ := List.mem_map.mp isMark
  simp [Token.word?, ← lexeme] at isWord

theorem closerFrom_eq (flat : Flat ts later) (notSquare : kind ≠ .square) :
    closerFrom kind depth ts = closerFrom kind depth later := by
  obtain ⟨front, rfl, bare⟩ := flat
  induction front with
  | nil => rfl
  | cons t front ih =>
    have plain := bare t (List.mem_cons_self ..)
    have ne : t.lexeme ≠ .mark kind.opening ∧ t.lexeme ≠ .mark kind.closing := by
      cases kind <;> simp_all [Bracket.opening, Bracket.closing]
    rw [List.cons_append, closerFrom_other ne.1 ne.2]
    exact ih fun u member => bare u (List.mem_cons_of_mem t member)

end Flat

theorem flat_nextWord? (found : nextWord? ts = some text) : Flat ts (ts.drop 1) := by
  cases ts with
  | nil => exact .refl _
  | cons t ts => exact .word found ts

theorem flat_nextName? (found : nextName? ts = some text) : Flat ts (ts.drop 1) :=
  flat_nextWord? (Option.filter_eq_some_iff.mp found).1

theorem flat_name (isName : nextName? [t] = some text) (ts : List Token) : Flat (t :: ts) ts :=
  .word (Option.filter_eq_some_iff.mp isName).1 ts

theorem flat_nextIs (next : nextIs c ts = true) (bare : c ∉ ['{', '}', '(', ')']) : Flat ts (ts.drop 1) := by
  cases ts with
  | nil => exact .refl _
  | cons t ts => exact .mark (by simpa [nextIs] using next) bare ts

theorem flat_dropGlobal (ts : List Token) : Flat ts (dropGlobal ts) := by
  unfold dropGlobal
  split
  · next a b c rest =>
    split
    · next global =>
      simp only [Bool.and_eq_true, beq_iff_eq] at global
      obtain ⟨⟨word, first⟩, second⟩ := global
      exact (Flat.word word _).trans ((Flat.mark first (by decide) _).trans (.mark second (by decide) _))
    · exact .refl _
  · exact .refl _

theorem flat_dottedTail (ts : List Token) : Flat ts (dottedTail ts).2 := by
  fun_induction dottedTail ts with
  | case1 dot part rest isDot word isWord text later read ih =>
    rw [read] at ih
    exact (Flat.mark isDot (by decide) _).trans ((Flat.word isWord _).trans ih)
  | case2 | case3 | case4 => exact .refl _

theorem flat_dottedName? (read : dottedName? ts = some (text, later)) : Flat ts later := by
  unfold dottedName? at read
  simp only at read
  split at read
  · simp at read
  · next first found =>
    simp only [Option.some.injEq, Prod.mk.injEq] at read
    rw [← read.2]
    exact (flat_dropGlobal ts).trans ((flat_nextName? found).trans (flat_dottedTail _))

theorem flat_rankTail? (read : rankTail? ts = some (text, later)) : Flat ts later := by
  induction ts generalizing text later with
  | nil => simp [rankTail?] at read
  | cons t rest ih =>
    simp only [rankTail?] at read
    split at read
    · next comma =>
      obtain ⟨⟨inner, last⟩, found, same⟩ := Option.map_eq_some_iff.mp read
      simp only [Prod.mk.injEq] at same
      exact (Flat.mark comma (by decide) _).trans (same.2 ▸ ih found)
    · split at read
      · next bracket =>
        simp only [Option.some.injEq, Prod.mk.injEq] at read
        exact read.2 ▸ .mark bracket (by decide) _
      · simp at read

theorem flat_ranks (ts : List Token) : Flat ts (ranks ts).2 := by
  fun_induction ranks ts with
  | case1 => exact .refl _
  | case2 t rest bracket rank later found text last read ih =>
    rw [read] at ih
    exact (Flat.mark bracket (by decide) _).trans ((flat_rankTail? found).trans ih)
  | case3 | case4 => exact .refl _

theorem flat_typeMarks (ts : List Token) : Flat ts (typeMarks ts).2 := by
  unfold typeMarks
  split
  · next nullable => exact (flat_nextIs nullable (by decide)).trans (flat_ranks _)
  · exact flat_ranks ts

theorem flat_typeFrom_typeTail (bound : Nat) : ∀ ts : List Token, ts.length < bound →
    (∀ depth text later, typeFrom depth ts = some (text, later) → Flat ts later) ∧
      (∀ depth text later, typeTail depth ts = some (text, later) → Flat ts later) := by
  induction bound with
  | zero =>
    intro ts small
    omega
  | succ bound ih =>
    intro ts small
    refine ⟨fun depth text later read => ?_, fun depth text later read => ?_⟩
    · unfold typeFrom at read
      split at read
      · simp at read
      · next name mid found =>
        have shorter := dottedName?_length_lt found
        have named := flat_dottedName? found
        split at read
        · next angle =>
          obtain ⟨⟨inner, last⟩, inArguments, same⟩ := Option.map_eq_some_iff.mp read
          simp only [Prod.mk.injEq] at same
          have step := (ih (mid.drop 1) (by simp only [List.length_drop]; omega)).1 _ _ _ inArguments
          exact same.2 ▸ named.trans ((flat_nextIs angle (by decide)).trans step)
        · obtain ⟨⟨inner, last⟩, inTail, same⟩ := Option.map_eq_some_iff.mp read
          simp only [Prod.mk.injEq] at same
          exact same.2 ▸ named.trans ((ih mid (by omega)).2 _ _ _ inTail)
    · have marks := flat_typeMarks ts
      have length := typeMarks_length_le ts
      unfold typeTail at read
      split at read
      · simp only [Option.some.injEq, Prod.mk.injEq] at read
        exact read.2 ▸ marks
      · split at read
        · simp at read
        · next t rest split_ =>
          rw [split_] at marks
          rw [split_, List.length_cons] at length
          split at read
          · next comma =>
            obtain ⟨⟨inner, last⟩, found, same⟩ := Option.map_eq_some_iff.mp read
            simp only [Prod.mk.injEq] at same
            have step := (ih rest (by omega)).1 _ _ _ found
            exact same.2 ▸ marks.trans ((Flat.mark comma (by decide) _).trans step)
          · split at read
            · next angle =>
              obtain ⟨⟨inner, last⟩, found, same⟩ := Option.map_eq_some_iff.mp read
              simp only [Prod.mk.injEq] at same
              have step := (ih rest (by omega)).2 _ _ _ found
              exact same.2 ▸ marks.trans ((Flat.mark angle (by decide) _).trans step)
            · simp at read

theorem flat_readType? (read : readType? ts = some (text, later)) : Flat ts later :=
  (flat_typeFrom_typeTail (ts.length + 1) ts (Nat.lt_succ_self _)).1 0 text later read

theorem flat_declaredType? (read : declaredType? ts = some (text, later)) : Flat ts later := by
  unfold declaredType? at read
  split at read
  · next var =>
    simp only [Option.some.injEq, Prod.mk.injEq] at read
    exact read.2 ▸ flat_nextWord? (by simpa using var)
  · exact flat_readType? read

theorem flat_dropWords (set : List String) (ts : List Token) : Flat ts (dropWords set ts) := by
  induction ts with
  | nil => exact .refl _
  | cons t ts ih =>
    unfold dropWords at ih ⊢
    rw [List.dropWhile_cons]
    split
    · next inSet =>
      cases isWord : t.word? with
      | none => simp [isWord] at inSet
      | some word => exact (Flat.word isWord ts).trans ih
    · exact .refl _

end Typeahead.Source
