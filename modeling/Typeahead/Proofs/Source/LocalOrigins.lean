import Typeahead.Proofs.Source.TokenSuffix

namespace Typeahead.Source

/-- A statement goes on to a later place, over tokens without braces and parentheses and over values. -/
inductive LeadsTo (us : List Token) : List Token → Prop
  | here : LeadsTo us us
  | flat {ts later : List Token} (leads : LeadsTo us ts) (flat : Flat ts later) : LeadsTo us later
  | value {ts : List Token} (leads : LeadsTo us ts) (ends : expressionEnd ts ≠ []) : LeadsTo us (expressionEnd ts)

/-- Between the start of a token and a later place. -/
def Span.FromToken (scan : Scan) (ts : List Token) (s : Span) : Prop :=
  ∃ t rest last, t :: rest <:+ ts ∧ last <:+ rest ∧ s = Span.of t.start (scan.offsetOf last)

/-- One of the tokens is read as the name. -/
def NamedIn (ts : List Token) (text : String) : Prop := ∃ name ∈ ts, nextName? [name] = some text

/-- A local that is declared at a place of a block. It is declared to the end of the block under a name that the
statement leads to, or in a header to a place behind its name. -/
inductive LocalOrigin (scan : Scan) (scope : LocalScope) (us : List Token) : Variable → Prop
  | inBlock {name : Token} {rest : List Token} {text : String} (typed : String × Option Initializer)
      (leads : LeadsTo us (name :: rest)) (isName : nextName? [name] = some text) :
      LocalOrigin scan scope us (scope.variable text name.start typed)
  | inHeader {name : Token} {rest last : List Token} {text : String} (typed : String × Option Initializer)
      (declares : name :: rest <:+ us) (ends : last <:+ rest) (isName : nextName? [name] = some text) :
      LocalOrigin scan scope us (LocalScope.variable ⟨scan.offsetOf last, scope.isStatic⟩ text name.start typed)

variable {scan : Scan} {scope : LocalScope} {ts us later : List Token} {v : Variable} {isStatic : Bool}

theorem LeadsTo.suffix (leads : LeadsTo us ts) : ts <:+ us := by
  induction leads with
  | here => exact List.suffix_rfl
  | flat _ flat ih => exact flat.suffix.trans ih
  | value _ _ ih => exact (expressionEnd_suffix _).trans ih

theorem Span.FromToken.mono {s : Span} (span : s.FromToken scan us) (suffix : us <:+ ts) : s.FromToken scan ts := by
  obtain ⟨t, rest, last, starts, ends, same⟩ := span
  exact ⟨t, rest, last, starts.trans suffix, ends, same⟩

/-- A word that can be a name is the first token. -/
theorem exists_of_nextName? {text : String} (read : nextName? ts = some text) :
    ∃ name rest, ts = name :: rest ∧ nextName? [name] = some text := by
  cases ts with
  | nil => simp [nextName?, nextWord?] at read
  | cons name rest => exact ⟨name, rest, rfl, read⟩

namespace LocalOrigin

theorem namedIn (origin : LocalOrigin scan scope us v) : NamedIn us v.name := by
  cases origin with
  | inBlock typed leads isName => exact ⟨_, leads.suffix.subset List.mem_cons_self, isName⟩
  | inHeader typed declares ends isName => exact ⟨_, declares.subset List.mem_cons_self, isName⟩

theorem isLocal (origin : LocalOrigin scan scope us v) : v.kind = .localVariable := by
  cases origin <;> rfl

/-- The declarators of a statement, from any of them on. -/
theorem declarators {written : String} (leads : LeadsTo us ts) :
    ∀ v ∈ declarators scan scope written ts, LocalOrigin scan scope us v := by
  fun_induction Source.declarators scan scope written ts with
  | case1 | case2 | case7 | case8 => simp
  | case3 name follow rest text isName equals _ last declared comma ih =>
    have value : Flat (name :: follow :: rest) rest := (flat_name isName _).trans (.mark equals (by decide) rest)
    have goesOn : last ≠ [] := by
      rintro nothing
      simp [nothing, nextIs] at comma
    have next : LeadsTo us (last.drop 1) := .flat (.value (.flat leads value) goesOn) (flat_nextIs comma (by decide))
    exact List.forall_mem_cons.mpr ⟨.inBlock _ leads isName, ih next⟩
  | case5 name follow rest text isName _ comma ih =>
    have next : Flat (name :: follow :: rest) rest := (flat_name isName _).trans (.mark comma (by decide) rest)
    exact List.forall_mem_cons.mpr ⟨.inBlock _ leads isName, ih (.flat leads next)⟩
  | case4 name follow rest text isName | case6 name follow rest text isName =>
    exact List.forall_mem_singleton.mpr (.inBlock _ leads isName)

theorem statementLocals : ∀ v ∈ statementLocals scan scope us, LocalOrigin scan scope us v := by
  unfold Source.statementLocals
  split
  · next written later read =>
    exact declarators (.flat .here ((flat_dropWords statementWords us).trans (flat_declaredType? read)))
  · simp

/-- The statement that a header controls ends at its brace or at its semicolon. -/
theorem exists_controlled_stop (scan : Scan) (controlled : List Token) :
    ∃ last, last <:+ controlled ∧ (if nextIs '{' controlled then scan.closeOffset .brace (controlled.drop 1)
      else scan.offsetOf (controlled.dropWhile (!·.isMark ';'))) = scan.offsetOf last := by
  split
  · exact ⟨_, (fromCloser_suffix .brace _).trans (List.drop_suffix 1 _), rfl⟩
  · exact ⟨_, List.dropWhile_suffix _, rfl⟩

theorem headerLocals {keyword : String} :
    ∀ v ∈ headerLocals scan scope.isStatic keyword us, LocalOrigin scan scope us v := by
  unfold Source.headerLocals
  split
  · simp
  · next written later read =>
    split
    · simp
    · next text isName =>
      obtain ⟨name, rest, rfl, isName⟩ := exists_of_nextName? isName
      have typed := flat_declaredType? read
      have behind : afterCloser .paren us <:+ rest := by
        rw [afterCloser, fromCloser, (typed.trans (flat_name isName rest)).closerFrom_eq (by decide)]
        exact afterCloser_suffix .paren rest
      obtain ⟨last, ends, stop⟩ := exists_controlled_stop scan (afterCloser .paren us)
      simp only [stop]
      have one (initialized : String × Option Initializer) :
          ∀ v ∈ [LocalScope.variable ⟨scan.offsetOf last, scope.isStatic⟩ text name.start initialized],
            LocalOrigin scan scope us v :=
        List.forall_mem_singleton.mpr (.inHeader initialized typed.suffix (ends.trans behind) isName)
      split
      · split
        · exact one _
        · simp
      · split
        · split
          · exact one _
          · simp
        · split
          · split
            · exact one _
            · simp
          · simp

theorem outLocals : ∀ v ∈ outLocals scan scope us, LocalOrigin scan scope us v := by
  unfold Source.outLocals
  split
  · simp
  · split
    · simp
    · next written later read =>
      split
      · simp
      · next text isName =>
        obtain ⟨name, rest, rfl, isName⟩ := exists_of_nextName? isName
        simp only
        split
        · exact List.forall_mem_singleton.mpr (.inBlock _ (.flat .here (flat_readType? read)) isName)
        · simp

/-- Whatever is declared at a place. -/
theorem localsAt {before : Option Token} {previous : Token} :
    ∀ v ∈ localsAt scan scope before previous us, LocalOrigin scan scope us v := by
  unfold Source.localsAt
  split
  · exact statementLocals
  · split
    · split
      · exact headerLocals
      · simp
    · split
      · exact outLocals
      · simp

end LocalOrigin

/-- The scan of a block declares nothing but what is declared at its places. -/
theorem exists_of_mem_localsFrom {outer count : Nat} {blocks : List Nat} {before : Option Token} {previous : Token}
    (declared : v ∈ localsFrom scan isStatic outer count blocks before previous ts) :
    ∃ stop us, LocalOrigin scan ⟨stop, isStatic⟩ us v := by
  fun_induction localsFrom scan isStatic outer count blocks before previous ts with
  | case1 | case2 => simp at declared
  | case3 _ _ _ _ _ _ _ ih | case4 _ _ _ _ _ _ _ _ ih => exact ih declared
  | case5 _ _ _ _ _ _ _ _ ih =>
    rcases List.mem_append.mp declared with here | later
    · exact ⟨_, _, LocalOrigin.localsAt v here⟩
    · exact ih later

theorem kind_of_mem_localsFrom {outer count : Nat} {blocks : List Nat} {before : Option Token} {previous : Token}
    (declared : v ∈ localsFrom scan isStatic outer count blocks before previous ts) : v.kind = .localVariable := by
  obtain ⟨stop, us, origin⟩ := exists_of_mem_localsFrom declared
  exact origin.isLocal

end Typeahead.Source
