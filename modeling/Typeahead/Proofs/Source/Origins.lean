import Typeahead.Proofs.Source.BlockStack
import Typeahead.Proofs.Source.DeclarationSlices
import Typeahead.Proofs.Source.Inheritable
import Typeahead.Proofs.Source.LocalOrigins

namespace Typeahead.Source

variable {scan : Scan} {fields span : Span} {ts us inside later rest : List Token} {t brace : Token} {isStatic : Bool}
  {v : Variable} {text : String}

/-- Where a variable of a type is declared: as a field, as a parameter in front of a body, or as a local at a place of
a block, the innermost around the place. -/
inductive Variable.Origin (scan : Scan) (fields : Span) (ts : List Token) (v : Variable) : Prop
  | field (isName : NamedIn ts v.name) (holds : v.span = fields)
  | parameter {name : Token} {code : Span} (declares : name ∈ ts) (isName : nextName? [name] = some v.name)
      (body : code.FromToken scan ts) (holds : v.span = Span.of (min name.start code.start) code.stop)
  | inBlock {brace : Token} {inside us : List Token} {isStatic : Bool} (block : brace :: inside <:+ ts)
      (opens : brace.lexeme = .mark '{') (within : us <:+ inside)
      (innermost : closerFrom .brace 0 inside = closerFrom .brace 0 us)
      (origin : LocalOrigin scan ⟨scan.closeOffset .brace us, isStatic⟩ us v)

theorem Variable.Origin.namedIn (origin : v.Origin scan fields ts) : NamedIn ts v.name := by
  cases origin with
  | field isName => exact isName
  | parameter declares isName => exact ⟨_, declares, isName⟩
  | @inBlock brace inside us _ block _ within _ origin =>
    obtain ⟨name, member, isName⟩ := origin.namedIn
    have suffix : us <:+ ts := within.trans ((List.suffix_cons brace inside).trans block)
    exact ⟨name, suffix.subset member, isName⟩

/-- Some declarations are read among the tokens of a scan, the fields with the span of the type's body. -/
structure Declarations.ReadFrom (scan : Scan) (fields : Span) (ts : List Token) (ds : Declarations) : Prop where
  vars : ∀ v ∈ ds.vars, v.Origin scan fields ts
  methods : ∀ m ∈ ds.methods, NamedIn ts m.name ∧ m.span.FromToken scan ts
  properties : ∀ p ∈ ds.properties, NamedIn ts p.name ∧ p.span.FromToken scan ts
  bodies : ∀ b ∈ ds.bodies, b.span.FromToken scan ts

theorem Declarations.readFrom_empty (names : List String) :
    Declarations.ReadFrom scan fields ts { privateNames := names } := by
  constructor <;> simp

theorem Declarations.ReadFrom.append {a b : Declarations} (first : a.ReadFrom scan fields ts)
    (second : b.ReadFrom scan fields ts) : (a ++ b).ReadFrom scan fields ts where
  vars v member := (List.mem_append.mp member).elim (first.vars v) (second.vars v)
  methods m member := (List.mem_append.mp member).elim (first.methods m) (second.methods m)
  properties p member := (List.mem_append.mp member).elim (first.properties p) (second.properties p)
  bodies b member := (List.mem_append.mp member).elim (first.bodies b) (second.bodies b)

theorem exists_index_of_suffix (suffix : t :: rest <:+ ts) :
    ∃ i, ts[i]? = some t ∧ ts.drop (i + 1) = rest ∧ i + 1 + rest.length = ts.length := by
  obtain ⟨front, rfl⟩ := suffix
  refine ⟨front.length, by simp, by simp, ?_⟩
  simp only [List.length_append, List.length_cons]
  omega

/-- The locals of a block, for its brace and the tokens after it. -/
theorem origin_of_mem_blockLocals (opens : brace.lexeme = .mark '{') (suffix : brace :: inside <:+ ts) :
    ∀ v ∈ blockLocals scan isStatic brace inside, v.Origin scan fields ts := by
  obtain ⟨opening, here, rfl, -⟩ := exists_index_of_suffix suffix
  rw [blockLocals_eq here opens]
  intro v member
  obtain ⟨n, inRange, declared⟩ := List.mem_flatMap.mp member
  have within : opening + 1 + n ≤ bodyEnd ts opening := by
    have := List.mem_range.mp inRange
    omega
  have body : OpensGroup .brace ts opening := ⟨brace, here, opens⟩
  obtain ⟨block, outer, blocks, greatest⟩ := top_blocksBehind body within
  have stack := stackAt_blocksBehind body (Nat.le_trans within body.bodyEnd_le)
  have innermost := stack.closes 0 block (by rw [blocks]; rfl)
  have stop : scan.closeOffset .brace (ts.drop (block + 1)) = scan.closeOffset .brace (ts.drop (opening + 1 + n)) := by
    rw [Scan.closeOffset, fromCloser, innermost]
    rfl
  obtain ⟨innerBrace, atBlock, isOpening⟩ := greatest.1.opens
  have inner : ts.drop (opening + 1 + n) <:+ ts.drop (block + 1) :=
    List.drop_suffix_drop_left ts greatest.1.before
  unfold declaredAt at declared
  split at declared
  · simp only [blocks, List.headD_cons, stop] at declared
    exact .inBlock (drop_of_getElem? atBlock ▸ List.drop_suffix block ts) isOpening inner innermost
      (LocalOrigin.localsAt v declared)
  · simp at declared

theorem exists_name_of_mem_parameterAt {p : PlacedParameter} (member : (parameterAt ts).1 = some p) :
    ∃ name ∈ ts, nextName? [name] = some p.parameter.name ∧ p.start = name.start := by
  unfold parameterAt at member
  simp only at member
  split at member
  · simp at member
  · next written later read =>
    have behind := (readType?_suffix read).trans (dropWords_suffix parameterWords ts)
    split at member
    · simp at member
    · next name rest =>
      split at member
      · simp at member
      · next text isName =>
        obtain rfl := Option.some.inj member
        exact ⟨name, behind.subset List.mem_cons_self, isName, rfl⟩

theorem afterComma_parameterAt_suffix (ts : List Token) : (parameterAt ts).2 <:+ ts := by
  have words := dropWords_suffix parameterWords ts
  have comma := (afterComma_suffix (dropWords parameterWords ts)).trans words
  unfold parameterAt
  simp only
  split
  · exact comma
  · next written later read =>
    have behind := (readType?_suffix read).trans words
    split
    · exact comma
    · next name rest =>
      split
      · exact comma
      · exact (afterComma_suffix rest).trans ((List.suffix_cons name rest).trans behind)

theorem exists_name_of_mem_parametersFrom {p : PlacedParameter} (member : p ∈ parametersFrom ts) :
    ∃ name ∈ ts, nextName? [name] = some p.parameter.name ∧ p.start = name.start := by
  fun_induction parametersFrom ts with
  | case1 => simp at member
  | case2 t ts _ ih =>
    obtain ⟨name, inside, read⟩ := ih member
    exact ⟨name, List.mem_cons_of_mem t ((afterCloser_suffix .square ts).subset inside), read⟩
  | case3 t ts _ ih =>
    rcases List.mem_append.mp member with here | later
    · exact exists_name_of_mem_parameterAt (Option.mem_toList.mp here)
    · obtain ⟨name, inside, read⟩ := ih later
      exact ⟨name, (afterComma_parameterAt_suffix (t :: ts)).subset inside, read⟩

/-- The code of `=> value;` ends at a token behind the equals sign. -/
theorem lastOffsetBefore_arrow (scan : Scan) (equals : t.isMark '=' = true) (arrow : nextIs '>' ts = true) :
    ∃ later, later <:+ ts ∧ lastOffsetBefore scan (t :: ts) (skipMember (t :: ts)) = scan.offsetOf later := by
  cases ts with
  | nil => simp [nextIs] at arrow
  | cons angle more =>
    have isEquals : t.lexeme = .mark '=' := lexeme_of_isMark equals
    have isAngle : angle.lexeme = .mark '>' := by simpa [nextIs, Token.isMark] using arrow
    have skipped : skipMember (t :: angle :: more) = skipMember more := by
      rw [skipMember, opens?_plain (isEquals ▸ isPlain_mark (by decide)), isMark_eq_false (by simp [isEquals]),
        skipMember, opens?_plain (isAngle ▸ isPlain_mark (by decide)), isMark_eq_false (by simp [isAngle])]
      rfl
    have short := (skipMember_suffix more).length_le
    obtain ⟨k, count⟩ : ∃ k, (t :: angle :: more).length - (skipMember more).length - 1 = k + 1 :=
      ⟨more.length - (skipMember more).length, by simp only [List.length_cons]; omega⟩
    refine ⟨(angle :: more).drop k, List.drop_suffix k _, ?_⟩
    rw [lastOffsetBefore, skipped, count, List.drop_succ_cons]

theorem fromBody_head (found : fromBody ts = t :: rest) (equals : t.isMark '=' = true) : nextIs '>' rest = true := by
  have isEquals : t.lexeme = .mark '=' := lexeme_of_isMark equals
  fun_induction fromBody ts with
  | case1 => simp at found
  | case2 u us stops =>
    obtain ⟨rfl, rfl⟩ := List.cons.inj found
    simpa [Token.isMark, isEquals] using stops
  | case3 _ _ _ _ ih => exact ih found
  | case4 _ _ _ _ ih => exact ih found

theorem fromToken_block (suffix : t :: later <:+ ts) :
    (Span.of t.start (scan.closeOffset .brace later)).FromToken scan ts :=
  ⟨t, later, _, suffix, fromCloser_suffix .brace later, rfl⟩

/-- A span that starts at a token and ends where the span of code behind it ends. -/
theorem Span.FromToken.extend (code : span.FromToken scan later) (suffix : t :: rest <:+ ts) (behind : later <:+ rest) :
    (Span.of t.start span.stop).FromToken scan ts := by
  obtain ⟨u, more, last, starts, ends, rfl⟩ := code
  have stop : (Span.of u.start (scan.offsetOf last)).stop = max (scan.offsetOf last) (scan.offsetOf (u :: more)) := rfl
  rw [stop]
  rcases Nat.le_total (scan.offsetOf (u :: more)) (scan.offsetOf last) with le | le
  · rw [Nat.max_eq_left le]
    exact ⟨t, rest, last, suffix, ends.trans ((List.suffix_cons u more).trans (starts.trans behind)), rfl⟩
  · rw [Nat.max_eq_right le]
    exact ⟨t, rest, u :: more, suffix, starts.trans behind, rfl⟩

/-- The body of a method, a block or the code behind an arrow. -/
theorem readFrom_methodBody (scan : Scan) (fields : Span) (isStatic : Bool) (suffix : later <:+ ts)
    (arrow : ∀ t rest, later = t :: rest → t.isMark '=' = true → nextIs '>' rest = true) :
    (∀ span ∈ (methodBody scan isStatic later).span, span.FromToken scan later) ∧
      ∀ v ∈ (methodBody scan isStatic later).locals, v.Origin scan fields ts := by
  unfold methodBody
  split
  · simp
  · next t rest =>
    split
    · next brace =>
      refine ⟨?_, origin_of_mem_blockLocals (lexeme_of_isMark brace) suffix⟩
      rintro _ ⟨⟩
      exact fromToken_block List.suffix_rfl
    · split
      · next equals =>
        refine ⟨?_, by simp⟩
        rintro _ ⟨⟩
        obtain ⟨last, behind, offset⟩ := lastOffsetBefore_arrow scan equals (arrow t rest rfl equals)
        exact ⟨t, rest, last, List.suffix_rfl, behind, by rw [offset]⟩
      · simp

/-- A method or a constructor, for the tokens after the parenthesis that opens its parameters. -/
theorem readFrom_methodFrom {head : Option MethodHead} (suffix : later <:+ ts)
    (headed : ∀ h ∈ head, NamedIn ts h.name ∧ ∃ t rest, t :: rest <:+ ts ∧ h.start = t.start ∧ later <:+ rest) :
    (methodFrom scan isStatic head later).1.ReadFrom scan fields ts := by
  have body : fromBody (afterCloser .paren later) <:+ later :=
    (fromBody_suffix _).trans (afterCloser_suffix .paren later)
  obtain ⟨spans, locals⟩ := readFrom_methodBody scan fields isStatic (body.trans suffix)
    fun t rest found equals => fromBody_head found equals
  unfold methodFrom
  refine Declarations.ReadFrom.append ?_ ?_
  · cases bodySpan : (methodBody scan isStatic (fromBody (afterCloser .paren later))).span with
    | none => exact Declarations.readFrom_empty []
    | some span =>
      have code := (spans span bodySpan).mono (body.trans suffix)
      refine ⟨fun v member => ?_, by simp, by simp, List.forall_mem_singleton.mpr code⟩
      rcases List.mem_append.mp member with parameter | isLocal
      · obtain ⟨p, inside, rfl⟩ := List.mem_map.mp parameter
        obtain ⟨name, declares, isName, start⟩ := exists_name_of_mem_parametersFrom inside
        have inTokens : name ∈ ts := suffix.subset (insideGroup_subset .paren later declares)
        exact .parameter inTokens isName code (by rw [← start])
      · exact locals v isLocal
  · cases head with
    | none => exact Declarations.readFrom_empty []
    | some head =>
      obtain ⟨named, t, rest, first, start, behind⟩ := headed head rfl
      refine ⟨by simp, List.forall_mem_singleton.mpr ⟨named, ?_⟩, by simp, by simp⟩
      simp only [start]
      cases bodySpan : (methodBody scan isStatic (fromBody (afterCloser .paren later))).span with
      | none => exact ⟨t, rest, _, first, body.trans behind, rfl⟩
      | some span => exact (spans span bodySpan).extend first (body.trans behind)

theorem origin_of_mem_fieldsFrom {scope : FieldScope} (suffix : later <:+ ts) :
    ∀ v ∈ (fieldsFrom scope later).1, v.Origin scan scope.span ts := by
  fun_induction fieldsFrom scope later with
  | case1 | case2 => simp
  | case3 t us name isName next _ fields rest read ih =>
    have behind : next.drop 1 <:+ t :: us := by
      refine (List.drop_suffix 1 next).trans (List.IsSuffix.trans ?_ (List.suffix_cons t us))
      simp only [next]
      split
      · exact (expressionEnd_suffix _).trans (List.drop_suffix 1 us)
      · exact List.suffix_rfl
    rw [read] at ih
    exact List.forall_mem_cons.mpr ⟨.field ⟨t, suffix.subset List.mem_cons_self, isName⟩ rfl, ih (behind.trans suffix)⟩
  | case4 t us name isName =>
    exact List.forall_mem_singleton.mpr (.field ⟨t, suffix.subset List.mem_cons_self, isName⟩ rfl)

variable {body : BodyScope}

/-- A property has the span from its name on, and its code that from the mark behind the name on. -/
theorem readFrom_property {name : Token} {head : MemberHead} {vars : List Variable} {stop : List Token}
    (named : name :: rest <:+ ts) (isName : nextName? [name] = some text) (mark : t :: later <:+ rest)
    (ends : stop <:+ later) (locals : ∀ v ∈ vars, v.Origin scan fields ts) :
    Declarations.ReadFrom scan fields ts
      { properties := [⟨text, head.typeName, head.isStatic, Span.of name.start (scan.offsetOf stop)⟩]
        bodies := [⟨Span.of t.start (scan.offsetOf stop), head.isStatic⟩], vars } where
  vars := locals
  methods := by simp
  properties := List.forall_mem_singleton.mpr ⟨⟨name, named.subset List.mem_cons_self, isName⟩,
    name, rest, stop, named, ends.trans ((List.suffix_cons t later).trans mark), rfl⟩
  bodies := List.forall_mem_singleton.mpr
    ⟨t, later, stop, mark.trans ((List.suffix_cons name rest).trans named), ends, rfl⟩

/-- A member whose type has been read, from its name on. -/
theorem readFrom_namedMember {head : MemberHead} {named skip : List Token} (isName : nextName? named = some text)
    (headed : ∃ t rest, t :: rest <:+ ts ∧ head.start = t.start ∧ named <:+ rest) :
    (namedMember body head text named skip).1.ReadFrom body.scan body.span ts := by
  obtain ⟨first, more, starts, start, behind⟩ := headed
  obtain ⟨name, rest, rfl, isName⟩ := exists_of_nextName? isName
  have inTokens : name :: rest <:+ ts := behind.trans ((List.suffix_cons first more).trans starts)
  have generics := dropTypeParameters_suffix rest
  unfold namedMember
  simp only [List.drop_one, List.tail_cons]
  split
  · exact Declarations.readFrom_empty []
  · next t later split_ =>
    rw [split_] at generics
    have mark : t :: later <:+ ts := generics.trans ((List.suffix_cons name rest).trans inTokens)
    split
    · refine readFrom_methodFrom ((List.suffix_cons t later).trans mark) ?_
      rintro _ ⟨⟩
      refine ⟨⟨name, inTokens.subset List.mem_cons_self, isName⟩, first, more, starts, start, ?_⟩
      exact (List.suffix_cons t later).trans (generics.trans ((List.suffix_cons name rest).trans behind))
    · split
      · next brace =>
        exact readFrom_property inTokens isName generics (fromCloser_suffix .brace later)
          (origin_of_mem_blockLocals (lexeme_of_isMark brace) mark)
      · split
        · next arrow =>
          obtain ⟨equals, angle⟩ := Bool.and_eq_true_iff.mp arrow
          obtain ⟨last, ends, offset⟩ := lastOffsetBefore_arrow body.scan equals angle
          rw [split_, offset]
          exact readFrom_property inTokens isName generics ends (by simp)
        · split
          · exact ⟨origin_of_mem_fieldsFrom inTokens, by simp, by simp, by simp⟩
          · exact Declarations.readFrom_empty []

theorem readFrom_memberFrom (suffix : t :: later <:+ ts) :
    (memberFrom body t later).1.ReadFrom body.scan body.span ts := by
  have words := (dropWords_suffix modifierWords (t :: later)).trans suffix
  unfold memberFrom
  split
  · exact Declarations.readFrom_empty []
  · split
    · exact Declarations.readFrom_empty []
    all_goals
      simp only
      split
      · exact Declarations.readFrom_empty []
      · split
        · exact Declarations.readFrom_empty []
        · next written named read =>
          -- a type is at least one token, and its first one is in front of the name
          have headed : ∃ u rest, u :: rest <:+ ts ∧
              body.scan.offsetOf (dropWords modifierWords (t :: later)) = u.start ∧ named <:+ rest := by
            have length := readType?_length_lt read
            cases typed : dropWords modifierWords (t :: later) with
            | nil => simp [typed] at length
            | cons u rest =>
              rw [typed] at read length words
              rcases List.suffix_cons_iff.mp (readType?_suffix read) with same | inside
              · simp [same] at length
              · exact ⟨u, rest, words, rfl, inside⟩
          split
          · have behind := (readType?_suffix read).trans words
            exact readFrom_methodFrom ((List.drop_suffix 1 named).trans behind) (by simp)
          · split
            · exact Declarations.readFrom_empty []
            · next isName =>
              exact (Declarations.readFrom_empty _).append (readFrom_namedMember isName headed)

/-- All members of a body. -/
theorem readFrom_membersFrom (suffix : later <:+ ts) :
    (membersFrom body later).ReadFrom body.scan body.span ts := by
  fun_induction membersFrom body later with
  | case1 => exact Declarations.readFrom_empty []
  | case2 t later ih =>
    exact (readFrom_memberFrom suffix).append (ih ((memberFrom_suffix body t later).trans suffix))

/-- Everything that a type declares is read among the tokens of its body. -/
theorem Declarations.readFrom_ofType (text : List Char) (r : TypeRegion) :
    (Declarations.ofType text r).ReadFrom (bodyScan text r) (Span.of r.bodyStart r.stop) (bodyTokens text r) := by
  let body : BodyScope := ⟨bodyScan text r, Span.of r.bodyStart r.stop, r.isStatic⟩
  have members : (membersFrom body (bodyTokens text r)).ReadFrom body.scan body.span (bodyTokens text r) :=
    readFrom_membersFrom List.suffix_rfl
  exact members

/-- Declarations that a type has from its bases in the text: its variables hold in the body of the heir. -/
structure Declarations.PassedOn (text : List Char) (heir : TypeRegion) (ds : Declarations) : Prop where
  vars : ∀ v ∈ ds.vars, ∃ base ∈ inheritedRegions text heir, ∃ u ∈ (Declarations.ofType text base).vars,
    v = { u with span := Span.of heir.bodyStart heir.stop }
  methods : ∀ m ∈ ds.methods, ∃ base ∈ inheritedRegions text heir, m ∈ (Declarations.ofType text base).methods
  properties : ∀ p ∈ ds.properties, ∃ base ∈ inheritedRegions text heir,
    p ∈ (Declarations.ofType text base).properties
  bodies : ds.bodies = []

theorem passedOn_inheritedDeclarations (text : List Char) (heir : TypeRegion) :
    (inheritedDeclarations text heir).PassedOn text heir where
  vars v inherited := by
    rw [part_inheritedDeclarations Declarations.vars rfl Declarations.vars_append] at inherited
    obtain ⟨base, isBase, passed⟩ := List.mem_flatMap.mp inherited
    obtain ⟨u, kept, rfl⟩ := List.mem_map.mp passed
    exact ⟨base, isBase, u, (List.mem_filter.mp kept).1, rfl⟩
  methods m inherited := by
    rw [part_inheritedDeclarations Declarations.methods rfl Declarations.methods_append] at inherited
    obtain ⟨base, isBase, kept⟩ := List.mem_flatMap.mp inherited
    exact ⟨base, isBase, (List.mem_filter.mp kept).1⟩
  properties p inherited := by
    rw [part_inheritedDeclarations Declarations.properties rfl Declarations.properties_append] at inherited
    obtain ⟨base, isBase, kept⟩ := List.mem_flatMap.mp inherited
    exact ⟨base, isBase, (List.mem_filter.mp kept).1⟩
  bodies := by
    rw [part_inheritedDeclarations Declarations.bodies rfl fun _ _ => rfl]
    exact List.flatMap_eq_nil_iff.mpr fun _ _ => rfl

end Typeahead.Source
