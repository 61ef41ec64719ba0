import Typeahead.Proofs.Source.TypeBody
import Typeahead.Proofs.Source.ValueSearch

namespace Typeahead.Source

/-- Nested code without a semicolon or a comma outside its groups. -/
inductive Undivided : List Lexeme → Prop
  | nil : Undivided []
  | plain {l : Lexeme} {later : List Lexeme} (bare : l.IsPlain) (unended : l ≠ .mark ';')
      (unseparated : l ≠ .mark ',') (rest : Undivided later) : Undivided (l :: later)
  | group (kind : Bracket) {inside later : List Lexeme} (inner : Nested inside) (rest : Undivided later) :
      Undivided (.mark kind.opening :: (inside ++ .mark kind.closing :: later))

/-- `= value` where it stands. -/
structure PlacedValue where
  equals : Nat
  tokens : List Token
  code : ValueCode (tokens.map (·.lexeme))
  /-- It is no arrow. -/
  starts : nextIs '>' tokens = false
  present : tokens ≠ []

/-- A declared name, with its value if it has one. -/
structure Declarator where
  name : PlacedName
  value : Option PlacedValue
  /-- Offset of the comma or the semicolon behind it. -/
  stop : Nat

namespace Declarator

/-- The tokens of the value. -/
def code (d : Declarator) : List Token := (d.value.map (·.tokens)).getD []

/-- The tokens from the equals sign on. -/
def valueTokens (d : Declarator) : List Token := (d.value.map fun v => markAt '=' v.equals :: v.tokens).getD []

def tokens (d : Declarator) : List Token := d.name.token :: d.valueTokens

/-- The mark behind a declarator and the other declarators, for those after it. -/
def behind (d : Declarator) : List Declarator → List Token
  | [] => [markAt ';' d.stop]
  | next :: others => markAt ',' d.stop :: (next.tokens ++ next.behind others)

/-- The value has no comma outside its groups. -/
def Whole (d : Declarator) : Prop := Undivided (d.code.map (·.lexeme))

end Declarator

/-- `a = x, b, c = y;` -/
structure Declarators where
  first : Declarator
  others : List Declarator

def Declarators.list (ds : Declarators) : List Declarator := ds.first :: ds.others

def Declarators.tokens (ds : Declarators) : List Token := ds.first.tokens ++ ds.first.behind ds.others

theorem Declarators.tokens_eq (ds : Declarators) :
    ds.tokens = ds.first.name.token :: (ds.first.valueTokens ++ ds.first.behind ds.others) := rfl

/-- The code in front of `rest` is cut by a comma of the value of a declarator, the `count`-th one, and by none
before: `tail` is what stands behind that comma. -/
inductive Cut (rest : List Token) : Declarator → List Declarator → (count : Nat) → (tail : List Token) → Prop
  | here {d : Declarator} {others : List Declarator} {head back : List Token} {comma : Token}
      (split : d.code = head ++ comma :: back) (isComma : comma.lexeme = .mark ',')
      (whole : Undivided (head.map (·.lexeme))) : Cut rest d others 1 (back ++ (d.behind others ++ rest))
  | later {d next : Declarator} {others : List Declarator} {count : Nat} {tail : List Token} (whole : d.Whole)
      (cut : Cut rest next others count tail) : Cut rest d (next :: others) (count + 1) tail

/-- The variables of declarators, each for the declarator and the code behind it. -/
def variablesOf (recorded : Declarator → List Token → Variable) (rest : List Token) :
    Declarator → List Declarator → List Variable
  | d, [] => [recorded d (d.behind [] ++ rest)]
  | d, next :: others =>
    recorded d (d.behind (next :: others) ++ rest) :: variablesOf recorded rest next others

variable {t : Token} {ts rest tail : List Token} {ls : List Lexeme} {c : Char} {d : Declarator}
  {others : List Declarator} {count : Nat}

theorem expressionEnd_append (whole : Undivided ls) (spelled : ts.map (·.lexeme) = ls) (rest : List Token) :
    expressionEnd (ts ++ rest) = expressionEnd rest := by
  induction whole generalizing ts with
  | nil =>
    obtain rfl := List.map_eq_nil_iff.mp spelled
    rfl
  | plain bare unended unseparated _ ih =>
    obtain ⟨t, more, rfl, rfl, after⟩ := List.map_eq_cons_iff.mp spelled
    rw [List.cons_append, expressionEnd_plain bare unended unseparated, ih after]
  | group kind inner _ ih =>
    obtain ⟨opening, more, rfl, isOpening, tail⟩ := List.map_eq_cons_iff.mp spelled
    obtain ⟨inside, more, rfl, spelledInner, tail⟩ := List.map_eq_append_iff.mp tail
    obtain ⟨closing, more, rfl, isClosing, after⟩ := List.map_eq_cons_iff.mp tail
    rw [List.cons_append, List.append_assoc, List.cons_append,
      expressionEnd_group kind isOpening (spelledInner ▸ inner) isClosing, ih after]

theorem expressionEnd_mark (isMark : t.lexeme = .mark c) (stops : c ∈ [';', ',']) :
    expressionEnd (t :: rest) = t :: rest := by
  have bare : t.lexeme.IsPlain := isMark ▸ isPlain_mark (by rcases List.mem_pair.mp stops with rfl | rfl <;> decide)
  rw [expressionEnd, opens?_plain bare]
  rcases List.mem_pair.mp stops with rfl | rfl <;> simp [isMark_of_eq isMark]

/-- A value has no comma outside its groups, or a first one. -/
theorem ValueCode.undivided_or_split (code : ValueCode ls) :
    Undivided ls ∨ ∃ head back, ls = head ++ .mark ',' :: back ∧ Undivided head := by
  induction code with
  | nil => exact .inl .nil
  | @plain l later bare unended _ _ ih =>
    by_cases isComma : l = .mark ','
    · exact .inr ⟨[], later, by rw [isComma]; rfl, .nil⟩
    · rcases ih with whole | ⟨head, back, rfl, whole⟩
      · exact .inl (.plain bare unended isComma whole)
      · exact .inr ⟨l :: head, back, rfl, .plain bare unended isComma whole⟩
  | @group kind _ inside later inner _ _ ih =>
    rcases ih with whole | ⟨head, back, rfl, whole⟩
    · exact .inl (.group kind inner.nested whole)
    · exact .inr ⟨_, back, by simp, .group kind inner.nested whole⟩
  | @block inside later inner _ ih =>
    rcases ih with whole | ⟨head, back, rfl, whole⟩
    · exact .inl (.group .brace inner whole)
    · refine .inr ⟨.mark '{' :: (inside ++ .mark '}' :: head), back, by simp, .group .brace inner whole⟩

namespace Declarator

theorem exists_behind (d : Declarator) (others : List Declarator) :
    ∃ mark later c, d.behind others = mark :: later ∧ mark.lexeme = .mark c ∧ c ∈ [';', ','] := by
  cases others with
  | nil => exact ⟨_, _, ';', rfl, rfl, by decide⟩
  | cons next others => exact ⟨_, _, ',', rfl, rfl, by decide⟩

/-- Behind a declarator that another one follows stands a comma. -/
theorem nextIs_comma_behind (d next : Declarator) (others : List Declarator) (rest : List Token) :
    nextIs ',' (d.behind (next :: others) ++ rest) = true := rfl

theorem drop_behind (d next : Declarator) (others : List Declarator) (rest : List Token) :
    (d.behind (next :: others) ++ rest).drop 1 = next.tokens ++ (next.behind others ++ rest) := by
  rw [behind, List.cons_append, List.append_assoc, List.drop_one, List.tail_cons]

/-- The value of a declarator without such a comma is read to its end. -/
theorem Whole.expressionEnd_code (whole : d.Whole) (others : List Declarator) (rest : List Token) :
    expressionEnd (d.code ++ (d.behind others ++ rest)) = d.behind others ++ rest := by
  obtain ⟨mark, later, c, eq, isMark, stops⟩ := d.exists_behind others
  rw [expressionEnd_append whole rfl, eq, List.cons_append, expressionEnd_mark isMark stops]

theorem whole_or_split (d : Declarator) :
    d.Whole ∨ ∃ head comma back, d.code = head ++ comma :: back ∧ comma.lexeme = .mark ',' ∧
      Undivided (head.map (·.lexeme)) := by
  cases valued : d.value with
  | none =>
    left
    have none : d.code = [] := by simp [code, valued]
    rw [Whole, none]
    exact .nil
  | some v =>
    have eq : d.code = v.tokens := by simp [code, valued]
    rw [Whole, eq]
    refine v.code.undivided_or_split.imp id ?_
    rintro ⟨head, back, split, whole⟩
    obtain ⟨front, more, eq, rfl, tail⟩ := List.map_eq_append_iff.mp split
    obtain ⟨comma, after, rfl, isComma, -⟩ := List.map_eq_cons_iff.mp tail
    exact ⟨front, comma, after, eq, isComma, whole⟩

end Declarator

/-- Declarators are cut, or all their values are whole. -/
theorem whole_or_cut (rest : List Token) (d : Declarator) (others : List Declarator) :
    (∀ e ∈ d :: others, e.Whole) ∨ ∃ count tail, Cut rest d others count tail := by
  induction others generalizing d with
  | nil =>
    rcases d.whole_or_split with whole | ⟨head, comma, back, split, isComma, whole⟩
    · exact .inl (by simpa using whole)
    · exact .inr ⟨_, _, .here split isComma whole⟩
  | cons next others ih =>
    rcases d.whole_or_split with whole | ⟨head, comma, back, split, isComma, first⟩
    · rcases ih next with all | ⟨count, tail, cut⟩
      · exact .inl (List.forall_mem_cons.mpr ⟨whole, all⟩)
      · exact .inr ⟨_, _, .later whole cut⟩
    · exact .inr ⟨_, _, .here split isComma first⟩

theorem PlacedValue.nextIs_arrow (v : PlacedValue) (rest : List Token) : nextIs '>' (v.tokens ++ rest) = false := by
  obtain ⟨t, more, eq⟩ := List.exists_cons_of_ne_nil v.present
  have starts := v.starts
  rw [eq] at starts ⊢
  exact starts

section Reader

variable {read : List Token → List Variable} {recorded : Declarator → List Token → Variable}

/-- How the reader goes on behind a declarator. -/
def ReadsOn (read : List Token → List Variable) (recorded : Declarator → List Token → Variable) : Prop :=
  ∀ (d : Declarator) (others : List Declarator) (rest : List Token),
    let behind := d.behind others ++ rest
    let last := expressionEnd (d.code ++ behind)
    read (d.tokens ++ behind) = recorded d behind :: if nextIs ',' last then read (last.drop 1) else []

theorem read_of_whole (reads : ReadsOn read recorded) (whole : ∀ e ∈ d :: others, e.Whole) :
    read (d.tokens ++ (d.behind others ++ rest)) = variablesOf recorded rest d others := by
  induction others generalizing d with
  | nil =>
    have ends := (whole d List.mem_cons_self).expressionEnd_code [] rest
    have notComma : nextIs ',' (d.behind [] ++ rest) = false := by
      rw [Declarator.behind, List.singleton_append, nextIs_mark rfl]
      rfl
    rw [reads, ends, notComma]
    rfl
  | cons next others ih =>
    have ends := (whole d List.mem_cons_self).expressionEnd_code (next :: others) rest
    rw [reads, ends, d.nextIs_comma_behind, if_pos rfl, d.drop_behind, ih (List.forall_mem_cons.mp whole).2]
    rfl

theorem read_of_cut (reads : ReadsOn read recorded) (cut : Cut rest d others count tail) :
    read (d.tokens ++ (d.behind others ++ rest)) = (variablesOf recorded rest d others).take count ++ read tail := by
  induction cut with
  | @here d others head back comma split isComma whole =>
    have ends : expressionEnd (d.code ++ (d.behind others ++ rest)) =
        comma :: (back ++ (d.behind others ++ rest)) := by
      rw [split, List.append_assoc, expressionEnd_append whole rfl, List.cons_append,
        expressionEnd_mark isComma (by decide)]
    have isNext : nextIs ',' (comma :: (back ++ (d.behind others ++ rest))) = true := by
      rw [nextIs_mark isComma]
      rfl
    have first : (variablesOf recorded rest d others).take 1 = [recorded d (d.behind others ++ rest)] := by
      cases others <;> rfl
    rw [reads, ends, isNext, if_pos rfl, first]
    rfl
  | @later d next others count tail whole cut ih =>
    have ends := whole.expressionEnd_code (next :: others) rest
    rw [reads, ends, d.nextIs_comma_behind, if_pos rfl, d.drop_behind, ih, variablesOf, List.take_succ_cons,
      List.cons_append]

/-- The variables are exactly those of the declarators if and only if what stands behind the first comma in a
value is read as the declarators that are left. -/
theorem read_eq_iff (reads : ReadsOn read recorded) (d : Declarator) (others : List Declarator) (rest : List Token) :
    read (d.tokens ++ (d.behind others ++ rest)) = variablesOf recorded rest d others ↔
      ∀ count tail, Cut rest d others count tail → read tail = (variablesOf recorded rest d others).drop count := by
  constructor
  · intro exactly count tail cut
    rw [read_of_cut reads cut] at exactly
    exact List.append_cancel_left (exactly.trans (List.take_append_drop count _).symm)
  · intro left
    rcases whole_or_cut rest d others with whole | ⟨count, tail, cut⟩
    · exact read_of_whole reads whole
    · rw [read_of_cut reads cut, left count tail cut, List.take_append_drop]

theorem Declarators.read_of_whole (ds : Declarators) (reads : ReadsOn read recorded)
    (whole : ∀ d ∈ ds.list, d.Whole) (rest : List Token) :
    read (ds.tokens ++ rest) = variablesOf recorded rest ds.first ds.others := by
  rw [tokens, List.append_assoc]
  exact Source.read_of_whole reads whole

theorem Declarators.read_eq_iff (ds : Declarators) (reads : ReadsOn read recorded) (rest : List Token) :
    read (ds.tokens ++ rest) = variablesOf recorded rest ds.first ds.others ↔
      ∀ count tail, Cut rest ds.first ds.others count tail →
        read tail = (variablesOf recorded rest ds.first ds.others).drop count := by
  rw [tokens, List.append_assoc]
  exact Source.read_eq_iff reads ds.first ds.others rest

end Reader

/-- The fields of declarators, whatever their values. -/
def Declarators.fields (ds : Declarators) (scope : FieldScope) : List Variable :=
  ds.list.map fun d => scope.variable d.name.name.text

theorem variablesOf_map (f : Declarator → Variable) (rest : List Token) (d : Declarator) (others : List Declarator) :
    variablesOf (fun d _ => f d) rest d others = (d :: others).map f := by
  induction others generalizing d with
  | nil => rfl
  | cons next others ih =>
    rw [variablesOf, ih]
    rfl

theorem nextIs_behind (d : Declarator) (others : List Declarator) (rest : List Token) (other : c ∉ [';', ',']) :
    nextIs c (d.behind others ++ rest) = false := by
  obtain ⟨mark, later, stop, eq, isMark, stops⟩ := d.exists_behind others
  rw [eq, List.cons_append, nextIs_mark isMark]
  refine beq_false_of_ne ?_
  rintro rfl
  exact other stops

theorem expressionEnd_behind (d : Declarator) (others : List Declarator) (rest : List Token) :
    expressionEnd (d.behind others ++ rest) = d.behind others ++ rest := by
  obtain ⟨mark, later, c, eq, isMark, stops⟩ := d.exists_behind others
  rw [eq, List.cons_append, expressionEnd_mark isMark stops]

/-- One declarator of a field, and how the reader goes on. -/
theorem fieldsFrom_declarator (scope : FieldScope) (d : Declarator) (others : List Declarator) (rest : List Token) :
    let behind := d.behind others ++ rest
    let last := expressionEnd (d.code ++ behind)
    fieldsFrom scope (d.tokens ++ behind) =
      if nextIs ',' last then
        (scope.variable d.name.name.text :: (fieldsFrom scope (last.drop 1)).1, (fieldsFrom scope (last.drop 1)).2)
      else ([scope.variable d.name.name.text], last) := by
  have named : nextName? [d.name.token] = some d.name.name.text := nextName?_name rfl
  intro behind last
  have ends : (if nextIs '=' (d.valueTokens ++ behind) then expressionEnd ((d.valueTokens ++ behind).drop 1)
      else d.valueTokens ++ behind) = last := by
    cases valued : d.value with
    | none =>
      have equals : nextIs '=' behind = false := nextIs_behind d others rest (by decide)
      have stays : last = behind := by simpa [last, Declarator.code, valued] using expressionEnd_behind d others rest
      simp [Declarator.valueTokens, valued, equals, stays]
    | some v => simp [Declarator.valueTokens, valued, last, Declarator.code, nextIs, Token.isMark, markAt]
  rw [Declarator.tokens, List.cons_append, fieldsFrom, named]
  simp only [ends]

theorem readsOn_fieldsFrom (scope : FieldScope) :
    ReadsOn (fun ts => (fieldsFrom scope ts).1) fun d _ => scope.variable d.name.name.text := by
  intro d others rest
  simp only [fieldsFrom_declarator]
  split <;> rfl

/-- Behind whole values the reader of fields stops at the semicolon. -/
theorem fieldsFrom_snd (scope : FieldScope) (rest : List Token) (whole : ∀ e ∈ d :: others, e.Whole) :
    ∃ stop, (fieldsFrom scope (d.tokens ++ (d.behind others ++ rest))).2 = markAt ';' stop :: rest := by
  induction others generalizing d with
  | nil =>
    refine ⟨d.stop, ?_⟩
    have ends := (whole d List.mem_cons_self).expressionEnd_code [] rest
    simp only [fieldsFrom_declarator, ends]
    rfl
  | cons next others ih =>
    obtain ⟨stop, eq⟩ := ih (List.forall_mem_cons.mp whole).2
    have ends := (whole d List.mem_cons_self).expressionEnd_code (next :: others) rest
    have one := fieldsFrom_declarator scope d (next :: others) rest
    simp only [ends, d.nextIs_comma_behind, if_true, d.drop_behind] at one
    exact ⟨stop, by rw [one, eq]⟩

/-- The scan of the members goes on behind a declaration of fields with whole values. -/
theorem Declarators.skipMember_fieldsFrom (ds : Declarators) (scope : FieldScope)
    (whole : ∀ d ∈ ds.list, d.Whole) (rest : List Token) :
    skipMember (fieldsFrom scope (ds.tokens ++ rest)).2 = rest := by
  obtain ⟨stop, eq⟩ := fieldsFrom_snd scope rest whole
  have nothing : Clause (([] : List Token).map (·.lexeme)) := .nil
  rw [tokens, List.append_assoc, eq]
  exact skipMember_semicolon nothing rfl rest

/-- The modifiers and the type of fields where they stand. -/
structure FieldHead where
  modifiers : Modifiers
  type : MemberType
  tokens : List Token
  spelled : tokens.map (·.lexeme) = modifiers.lexemes ++ type.expr.lexemes

/-- What the fields of a declaration share. -/
def FieldHead.scope (head : FieldHead) (scope : BodyScope) : FieldScope :=
  ⟨head.type.expr.text, head.modifiers.isStatic scope.isStatic, scope.span⟩

/-- What stands behind the first name. -/
theorem Declarators.exists_follow (ds : Declarators) :
    ∃ follow later c, ds.tokens = ds.first.name.token :: follow :: later ∧ follow.lexeme = .mark c ∧
      c ∈ ['=', ';', ','] ∧ ∀ rest, c = '=' → nextIs '>' (later ++ rest) = false := by
  cases valued : ds.first.value with
  | none =>
    obtain ⟨mark, later, c, eq, isMark, stops⟩ := ds.first.exists_behind ds.others
    refine ⟨mark, later, c, ?_, isMark, List.mem_cons_of_mem _ stops, fun rest isEquals => ?_⟩
    · simp [tokens, Declarator.tokens, Declarator.valueTokens, valued, eq]
    · rw [isEquals] at stops
      exact absurd stops (by decide)
  | some v =>
    refine ⟨markAt '=' v.equals, v.tokens ++ ds.first.behind ds.others, '=', ?_, rfl, by decide, fun rest _ => ?_⟩
    · simp [tokens, Declarator.tokens, Declarator.valueTokens, valued]
    · rw [List.append_assoc, v.nextIs_arrow]

/-- A member with declarators is read as fields. -/
theorem namedMember_declarators (scope : BodyScope) (head : MemberHead) (ds : Declarators) (rest skip : List Token) :
    let fields := fieldsFrom ⟨head.typeName, head.isStatic, scope.span⟩ (ds.tokens ++ rest)
    let read := namedMember scope head ds.first.name.name.text (ds.tokens ++ rest) skip
    read.1.vars = fields.1 ∧ read.2 = skipMember fields.2 := by
  obtain ⟨follow, later, c, shape, isFollow, inside, noArrow⟩ := ds.exists_follow
  have noAngle : nextIs '<' (follow :: (later ++ rest)) = false := by
    rw [nextIs_mark isFollow]
    refine beq_false_of_ne ?_
    rintro rfl
    exact absurd inside (by decide)
  have notMark {d : Char} (other : d ∉ ['=', ';', ',']) : follow.isMark d = false := by
    refine isMark_eq_false ?_
    rw [isFollow]
    intro same
    exact other (Lexeme.mark.inj same ▸ inside)
  have isOne : (follow.isMark '=' || follow.isMark ';' || follow.isMark ',') = true := by
    simp only [List.mem_cons, List.not_mem_nil, or_false] at inside
    rcases inside with rfl | rfl | rfl <;> simp [isMark_of_eq isFollow]
  have notArrow : (follow.isMark '=' && nextIs '>' (later ++ rest)) = false := by
    by_cases isEquals : c = '='
    · rw [noArrow rest isEquals, Bool.and_false]
    · rw [isMark_eq_false (by simpa [isFollow] using isEquals), Bool.false_and]
  have notParen : follow.isMark '(' = false := notMark (by decide)
  have notBrace : follow.isMark '{' = false := notMark (by decide)
  rw [shape, List.cons_append, List.cons_append]
  refine ⟨?_, ?_⟩ <;>
    simp only [namedMember, List.drop_one, List.tail_cons, dropTypeParameters_of_not_angle noAngle, notParen,
      notBrace, notArrow, isOne, Bool.false_eq_true, if_false, if_true]

/-- The scan of a type body records what the reader of fields finds and goes on where that one stops. -/
theorem vars_membersFrom_fields (scope : BodyScope) (head : FieldHead) (ds : Declarators) (rest : List Token) :
    let read := fieldsFrom (head.scope scope) (ds.tokens ++ rest)
    (membersFrom scope (head.tokens ++ (ds.tokens ++ rest))).vars =
      read.1 ++ (membersFrom scope (skipMember read.2)).vars := by
  obtain ⟨mods, written, split, spelledMods, spelledType⟩ := List.map_eq_append_iff.mp head.spelled
  obtain ⟨more, shape⟩ : ∃ more, ds.tokens ++ rest = ds.first.name.token :: more := ⟨_, rfl⟩
  have isName : ds.first.name.token.lexeme = .word ds.first.name.name.text := rfl
  cases whole : head.tokens ++ (ds.tokens ++ rest) with
  | nil => simp [Declarators.tokens, Declarator.tokens] at whole
  | cons t ts =>
    have parts : mods ++ (written ++ ds.first.name.token :: more) = t :: ts := by
      rw [← shape, ← List.append_assoc, ← split, whole]
    obtain ⟨member, skip, typed, static, read⟩ := memberFrom_typed scope spelledMods spelledType isName parts
    have same : (⟨member.typeName, member.isStatic, scope.span⟩ : FieldScope) = head.scope scope := by
      rw [FieldHead.scope, typed, static]
    obtain ⟨vars, left⟩ := namedMember_declarators scope member ds rest skip
    rw [same, shape] at vars left
    rw [membersFrom, Declarations.vars_append, read, Declarations.vars_append, vars, left, shape]
    rfl

/-- Members in front of other code are recorded as they declare, and the scan goes on behind them. -/
theorem vars_membersFrom_append (scope : BodyScope) (members : List MemberSyntax) (rest : List Token)
    (spelled : ts.map (·.lexeme) = members.flatMap (·.lexemes)) :
    ∃ before : Declarations, before.outline = Outline.ofMembers scope.isStatic members ∧
      (membersFrom scope (ts ++ rest)).vars = before.vars ++ (membersFrom scope rest).vars := by
  induction members generalizing ts with
  | nil =>
    obtain rfl := List.map_eq_nil_iff.mp spelled
    exact ⟨{}, rfl, rfl⟩
  | cons m members ih =>
    obtain ⟨front, more, rfl, spelledFirst, spelledRest⟩ := List.map_eq_append_iff.mp spelled
    obtain ⟨before, outline, goesOn⟩ := ih spelledRest
    rw [List.append_assoc]
    cases split : front ++ (more ++ rest) with
    | nil =>
      obtain ⟨rfl, -⟩ := List.append_eq_nil_iff.mp split
      exact absurd spelledFirst.symm m.lexemes_ne_nil
    | cons t ts =>
      obtain ⟨declares, left⟩ := memberFrom_member scope m spelledFirst split
      refine ⟨(memberFrom scope t ts).1 ++ before, ?_, ?_⟩
      · rw [Declarations.outline_append, declares, outline]
        rfl
      · rw [membersFrom, Declarations.vars_append, left, goesOn, Declarations.vars_append, List.append_assoc]

end Typeahead.Source
