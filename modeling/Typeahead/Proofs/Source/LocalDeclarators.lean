import Typeahead.Proofs.Source.BlockScope
import Typeahead.Proofs.Source.Declarators
import Typeahead.Proofs.Source.TokenSuffix

namespace Typeahead.Source

variable {scan : Scan} {scope : LocalScope} {isStatic : Bool} {written : String} {before : Option Token}
  {previous t : Token} {ts front rest : List Token} {c : Char} {d : Declarator} {others : List Declarator}

/-- The type of a local with the value, for the code behind it. -/
def Declarator.typed (scan : Scan) (written : String) (d : Declarator) (behind : List Token) :
    String × Option Initializer :=
  match d.value with
  | none => (written, none)
  | some v => initializedType scan written (v.tokens ++ behind) (expressionEnd (v.tokens ++ behind))

/-- The locals of declarators in front of `rest`. -/
def Declarators.locals (ds : Declarators) (scan : Scan) (scope : LocalScope) (written : String) (rest : List Token) :
    List Variable :=
  variablesOf (fun d behind => scope.variable d.name.name.text d.name.start (d.typed scan written behind)) rest
    ds.first ds.others

/-- One declarator of a local, and how the reader goes on. -/
theorem readsOn_declarators (scan : Scan) (scope : LocalScope) (written : String) :
    ReadsOn (declarators scan scope written)
      fun d behind => scope.variable d.name.name.text d.name.start (d.typed scan written behind) := by
  intro d others rest behind last
  have named : nextName? [d.name.token] = some d.name.name.text := nextName?_name rfl
  cases valued : d.value with
  | none =>
    obtain ⟨mark, later, c, eq, isMark, stops⟩ := d.exists_behind others
    have shape : behind = mark :: (later ++ rest) := by simp only [behind, eq, List.cons_append]
    have stays : last = mark :: (later ++ rest) := by
      simpa [last, Declarator.code, valued, shape, behind] using expressionEnd_behind d others rest
    have tokens : d.tokens ++ behind = d.name.token :: mark :: (later ++ rest) := by
      simp [Declarator.tokens, Declarator.valueTokens, valued, shape]
    rw [tokens, stays, declarators, named, nextIs_mark isMark]
    rcases List.mem_pair.mp stops with rfl | rfl <;>
      simp [Token.isMark, isMark, Declarator.typed, valued, PlacedName.token]
  | some v =>
    have tokens : d.tokens ++ behind = d.name.token :: markAt '=' v.equals :: (v.tokens ++ behind) := by
      simp [Declarator.tokens, Declarator.valueTokens, valued]
    have ends : last = expressionEnd (v.tokens ++ behind) := by simp [last, Declarator.code, valued]
    have noArrow : nextIs '>' (v.tokens ++ behind) = false := v.nextIs_arrow behind
    have isEquals : (markAt '=' v.equals).isMark '=' = true := isMark_of_eq rfl
    rw [tokens, declarators, named, ends]
    simp only [isEquals, noArrow, if_true, Bool.false_eq_true, if_false, Declarator.typed, valued]
    split <;> rfl

/-- The words in front of a local declaration and its type where they stand. -/
structure LocalHead where
  words : List String
  within : ∀ word ∈ words, word ∈ statementWords
  wordTokens : List Token
  spelled : wordTokens.map (·.lexeme) = words.map .word
  type : PlacedType

def LocalHead.tokens (head : LocalHead) : List Token := head.wordTokens ++ head.type.tokens

/-- A declaration statement is read as its declarators. -/
theorem statementLocals_declarators (head : LocalHead) (ds : Declarators) (rest : List Token) :
    statementLocals scan scope (head.tokens ++ (ds.tokens ++ rest)) =
      declarators scan scope head.type.expr.text (ds.tokens ++ rest) := by
  have first := nextWord?_expr head.type.spelled (ds.tokens ++ rest)
  have ends : (nextWord? (head.type.tokens ++ (ds.tokens ++ rest))).any statementWords.contains = false := by
    simp [first, head.type.unmarked]
  have dropped := dropWords_append head.spelled head.within ends
  have named : EndsType (ds.tokens ++ rest) := by
    rw [ds.tokens_eq, List.cons_append]
    exact endsType_word rfl
  have typed := declaredType?_placedType head.type named
  rw [dropWords_of_ends ends] at typed
  rw [statementLocals, LocalHead.tokens, List.append_assoc, dropped, typed]

theorem passes_valueTokens (d : Declarator) (before : Option Token) :
    Passes IsAside before d.name.token d.valueTokens := by
  cases valued : d.value with
  | none =>
    have eq : d.valueTokens = [] := by simp [Declarator.valueTokens, valued]
    rw [eq]
    exact passes_nil
  | some v =>
    have eq : d.valueTokens = markAt '=' v.equals :: v.tokens := by simp [Declarator.valueTokens, valued]
    rw [eq]
    refine .mark IsAside.append_left (c := '=') rfl (by decide) (passes_value v.code rfl ?_)
    exact ⟨by simp [markAt], by simp [markAt], by simp [markAt], by simp [markAt]⟩

theorem passes_declarators (d : Declarator) (others : List Declarator) (before : Option Token) :
    Passes IsAside before d.name.token (d.valueTokens ++ d.behind others) := by
  induction others generalizing d before with
  | nil =>
    refine .append IsAside.append_left (passes_valueTokens d before) ?_
    exact .mark IsAside.append_left (c := ';') rfl (by decide) passes_nil
  | cons next others ih =>
    have isComma : (markAt ',' d.stop).lexeme = .mark ',' := rfl
    refine .append IsAside.append_left (passes_valueTokens d before) ?_
    refine .mark IsAside.append_left isComma (by decide) ?_
    refine .cons IsAside.append_left (by simp [PlacedName.token]) (by simp [PlacedName.token])
      (fun _ _ _ _ read => ?_) (ih next _)
    simp [localsAt_of_mark_before isComma (by decide)] at read

/-- The last lexeme of a type and a name behind it. -/
theorem inert_placeBehind (chain : List.IsChain Inert (previous.lexeme :: (ts.map (·.lexeme) ++ [.mark ';']))) :
    Inert (placeBehind before previous ts).2.lexeme (.mark ';') := by
  obtain ⟨front, eq⟩ := exists_placeBehind before previous ts
  have spelled := congrArg (List.map Token.lexeme) eq
  rw [List.map_cons, List.map_append, List.map_singleton] at spelled
  rw [← List.cons_append, spelled, List.append_assoc] at chain
  exact (List.isChain_cons_cons.mp chain.right_of_append).1

/-- What stands behind the first word of the type. -/
theorem passes_behindType (type : PlacedType) (ds : Declarators) :
    ∃ first more, type.tokens ++ ds.tokens = first :: more ∧ first.lexeme = .word type.expr.head.text ∧
      ∀ before, Passes IsAside before first more := by
  have chain := type.expr.inert_lexemes [.mark ';'] ⟨⟨';', [], rfl, by decide⟩, .singleton _⟩
  obtain ⟨later, shape⟩ := type.expr.lexemes_eq
  obtain ⟨first, more, eq, isFirst, spelled⟩ := List.map_eq_cons_iff.mp (type.spelled.trans shape)
  rw [shape, ← isFirst, ← spelled] at chain
  refine ⟨first, more ++ ds.tokens, by rw [eq, List.cons_append], isFirst, fun before => ?_⟩
  have inside : List.IsChain Inert (first.lexeme :: more.map (·.lexeme)) := chain.left_of_append
  rw [ds.tokens_eq]
  refine .append IsAside.append_left (passes_inert IsAside.append_left inside) ?_
  have declared := passes_declarators ds.first ds.others (some (placeBehind before first more).2)
  refine .cons IsAside.append_left (by simp [PlacedName.token]) (by simp [PlacedName.token])
    (fun _ _ rest _ read => ?_) declared
  obtain ⟨follow, later, c, shape, isFollow, inside, -⟩ := ds.exists_follow
  have bare : c ∉ ['.', '<', '?', '[', ':'] := by
    simp only [List.mem_cons, List.not_mem_nil, or_false] at inside
    rcases inside with rfl | rfl | rfl <;> decide
  rw [ds.tokens_eq] at shape
  rw [(List.cons.inj shape).2, List.cons_append, localsAt_name (inert_placeBehind chain) rfl isFollow bare] at read
  exact absurd read List.not_mem_nil

/-- A local that the search reads at a place aside of some code behind the tokens `before` and `previous`. -/
def FoundAside (scan : Scan) (isStatic : Bool) (before : Option Token) (previous : Token) (ts rest : List Token)
    (v : Variable) : Prop :=
  ∃ front t back stop, ts = front ++ t :: back ∧ IsAside front ∧
    v ∈ localsAt scan ⟨stop, isStatic⟩ (placeBehind before previous front).1 (placeBehind before previous front).2
      (t :: (back ++ rest))

/-- Words in front of a type; none of them is `out`. -/
theorem passes_words {words : List String} {first : Token} {more : List Token} {word : String}
    (spelled : ts.map (·.lexeme) = words.map .word) (within : ∀ word ∈ words, word ∈ statementWords)
    (isFirst : first.lexeme = .word word) (passes : ∀ before, Passes IsAside before first more) :
    ∃ next later word, ts ++ first :: more = next :: later ∧ next.lexeme = .word word ∧
      ∀ before, Passes IsAside before next later := by
  induction words generalizing ts with
  | nil =>
    obtain rfl := List.map_eq_nil_iff.mp spelled
    exact ⟨first, more, word, rfl, isFirst, passes⟩
  | cons marked words ih =>
    obtain ⟨t, ts, rfl, isWord, after⟩ := List.map_eq_cons_iff.mp spelled
    obtain ⟨inside, within⟩ := List.forall_mem_cons.mp within
    obtain ⟨next, later, nextWord, eq, isNext, passes⟩ := ih after within
    have other : marked ≠ "out" := by
      rintro rfl
      exact absurd inside (by decide)
    exact ⟨t, next :: later, marked, congrArg (t :: ·) eq, isWord, fun _ =>
      .word IsAside.append_left isWord other isNext (passes _)⟩

theorem passes_declaration (head : LocalHead) (ds : Declarators) :
    ∃ first more word, head.tokens ++ ds.tokens = first :: more ∧ first.lexeme = .word word ∧
      ∀ before, Passes IsAside before first more := by
  obtain ⟨first, more, eq, isFirst, passes⟩ := passes_behindType head.type ds
  rw [LocalHead.tokens, List.append_assoc, eq]
  exact passes_words head.spelled head.within isFirst passes

/-- The search records what is read at the first word of a declaration, and what it finds besides stands
aside. -/
theorem localsFrom_declaration (scan : Scan) (isStatic : Bool) (outer n : Nat) (blocks : List Nat)
    (before : Option Token) (head : LocalHead) (ds : Declarators) (rest : List Token)
    (starts : EndsStatement previous) :
    ∃ found,
      localsFrom scan isStatic outer ((head.tokens ++ ds.tokens).length + n) blocks before previous
          (head.tokens ++ ds.tokens ++ rest) =
        declarators scan ⟨blocks.headD outer, isStatic⟩ head.type.expr.text (ds.tokens ++ rest) ++ found ++
          localsFrom scan isStatic outer n blocks (placeBehind before previous (head.tokens ++ ds.tokens)).1
            (placeBehind before previous (head.tokens ++ ds.tokens)).2 rest ∧
      ∀ v ∈ found, FoundAside scan isStatic before previous (head.tokens ++ ds.tokens) rest v := by
  have read : statementLocals scan ⟨blocks.headD outer, isStatic⟩ (head.tokens ++ ds.tokens ++ rest) = _ :=
    (congrArg _ (List.append_assoc ..)).trans (statementLocals_declarators head ds rest)
  obtain ⟨first, more, word, eq, isFirst, passes⟩ := passes_declaration head ds
  obtain ⟨found, run, places⟩ := passes (some previous) scan isStatic outer n blocks rest
  have count : (first :: more).length + n = more.length + n + 1 := by simp only [List.length_cons]; omega
  have notOpening : first.lexeme ≠ .mark '{' := by simp [isFirst]
  have notClosing : first.lexeme ≠ .mark '}' := by simp [isFirst]
  refine ⟨found, ?_, fun v inside => ?_⟩
  · rw [← read, eq, count, List.cons_append, localsFrom, isMark_eq_false notOpening, isMark_eq_false notClosing,
      localsAt_of_endsStatement starts, List.append_assoc]
    simp only [Bool.false_eq_true, if_false, run]
    rfl
  · obtain ⟨front, t, back, stop, shape, place, here⟩ := places v inside
    exact ⟨first :: front, t, back, stop, by rw [eq, shape, List.cons_append], place, here⟩

/-- The search through code, split where the code is. -/
theorem localsFrom_append (scan : Scan) (isStatic : Bool) (outer : Nat) (blocks : List Nat) (before : Option Token)
    (previous : Token) (ts rest : List Token) :
    ∃ blocks', ∀ n, localsFrom scan isStatic outer (ts.length + n) blocks before previous (ts ++ rest) =
      localsFrom scan isStatic outer ts.length blocks before previous (ts ++ rest) ++
        localsFrom scan isStatic outer n blocks' (placeBehind before previous ts).1 (placeBehind before previous ts).2
          rest := by
  induction ts generalizing blocks before previous with
  | nil =>
    refine ⟨blocks, fun n => ?_⟩
    rw [List.length_nil, Nat.zero_add, localsFrom]
    rfl
  | cons t ts ih =>
    have count (n : Nat) : (t :: ts).length + n = ts.length + n + 1 := by simp only [List.length_cons]; omega
    by_cases opens : t.isMark '{'
    · obtain ⟨blocks', run⟩ := ih (scan.closeOffset .brace (ts ++ rest) :: blocks) (some previous) t
      refine ⟨blocks', fun n => ?_⟩
      rw [count, List.cons_append, localsFrom, if_pos opens, run, List.length_cons, localsFrom, if_pos opens]
      rfl
    · by_cases closes : t.isMark '}'
      · obtain ⟨blocks', run⟩ := ih blocks.tail (some previous) t
        refine ⟨blocks', fun n => ?_⟩
        rw [count, List.cons_append, localsFrom, if_neg opens, if_pos closes, run, List.length_cons, localsFrom,
          if_neg opens, if_pos closes]
        rfl
      · obtain ⟨blocks', run⟩ := ih blocks (some previous) t
        refine ⟨blocks', fun n => ?_⟩
        rw [count, List.cons_append, localsFrom, if_neg opens, if_neg closes, run, List.length_cons, localsFrom,
          if_neg opens, if_neg closes, List.append_assoc]
        rfl

/-- The search through a block that holds a declaration: what it finds in front, what is read at the first word
of the declaration, what it finds besides and what it finds behind. -/
theorem blockLocals_declaration (scan : Scan) (isStatic : Bool) (brace : Token) (head : LocalHead)
    (ds : Declarators) (later : List Token)
    (inside : insideGroup .brace ts = front ++ (head.tokens ++ ds.tokens ++ later))
    (starts : EndsStatement (placeBehind none brace front).2) :
    let stop := scan.closeOffset .brace ts
    let place := placeBehind none brace front
    let place' := placeBehind place.1 place.2 (head.tokens ++ ds.tokens)
    let rest := later ++ fromCloser .brace ts
    ∃ blocks : List Nat, ∃ found,
      blockLocals scan isStatic brace ts =
          localsFrom scan isStatic stop front.length [] none brace ts ++
            (declarators scan ⟨blocks.headD stop, isStatic⟩ head.type.expr.text (ds.tokens ++ rest) ++ found ++
              localsFrom scan isStatic stop later.length blocks place'.1 place'.2 rest) ∧
        ∀ v ∈ found, FoundAside scan isStatic place.1 place.2 (head.tokens ++ ds.tokens) rest v := by
  intro stop place place' rest
  have block := insideGroup_append .brace ts
  rw [inside] at block
  have whole : front ++ (head.tokens ++ ds.tokens ++ rest) = ts := by
    rw [← block]
    simp only [rest, List.append_assoc]
  have count : ts.length - (fromCloser .brace ts).length =
      front.length + ((head.tokens ++ ds.tokens).length + later.length) := by
    have length := congrArg List.length block
    simp only [List.length_append] at length ⊢
    omega
  obtain ⟨blocks, split⟩ := localsFrom_append scan isStatic stop [] none brace front
    (head.tokens ++ ds.tokens ++ rest)
  obtain ⟨found, run, aside⟩ := localsFrom_declaration scan isStatic stop later.length blocks place.1 head ds rest
    starts
  rw [whole] at split
  exact ⟨blocks, found, by rw [blockLocals, count, split, run], aside⟩

/-- Declarators are recorded exactly. A declaration of fields among the members of a type, and a declaration of
locals anywhere in a block, record the variables that their declarators declare, with the type of the
declaration, when no value has a comma outside its groups. When one has, they do so if and only if the code
behind the first such comma is read as the declarators that are left. The scan of the type goes on behind the
declaration, and what the search for locals finds besides stands aside. -/
theorem declarators_recorded (ds : Declarators) :
    (∀ (text : List Char) (region : TypeRegion) (members : List MemberSyntax) (head : FieldHead)
        (front rest : List Token),
      tokensFrom region.bodyStart
          (Text.between region.bodyStart (min region.stop (Text.utf8Length text)) text) =
        front ++ (head.tokens ++ (ds.tokens ++ rest)) →
      front.map (·.lexeme) = members.flatMap (·.lexemes) →
      let scope : BodyScope := ⟨⟨text, min region.stop (Text.utf8Length text)⟩,
        Span.of region.bodyStart region.stop, region.isStatic⟩
      let fields := ds.fields (head.scope scope)
      let read := fieldsFrom (head.scope scope)
      let left := skipMember (read (ds.tokens ++ rest)).2
      (∃ before : Declarations, before.outline = Outline.ofMembers region.isStatic members ∧
        (Declarations.ofType text region).vars =
          before.vars ++ ((read (ds.tokens ++ rest)).1 ++ (membersFrom scope left).vars)) ∧
      ((∀ d ∈ ds.list, d.Whole) → (read (ds.tokens ++ rest)).1 = fields ∧ left = rest) ∧
      ((read (ds.tokens ++ rest)).1 = fields ↔
        ∀ count tail, Cut rest ds.first ds.others count tail → (read tail).1 = fields.drop count)) ∧
    ∀ (scan : Scan) (isStatic : Bool) (brace : Token) (ts front later : List Token) (head : LocalHead),
      insideGroup .brace ts = front ++ (head.tokens ++ ds.tokens ++ later) →
      EndsStatement (placeBehind none brace front).2 →
      let stop := scan.closeOffset .brace ts
      let place := placeBehind none brace front
      let place' := placeBehind place.1 place.2 (head.tokens ++ ds.tokens)
      let rest := later ++ fromCloser .brace ts
      ∃ blocks : List Nat, ∃ found,
        let scope : LocalScope := ⟨blocks.headD stop, isStatic⟩
        let locals := ds.locals scan scope head.type.expr.text rest
        let read := declarators scan scope head.type.expr.text
        blockLocals scan isStatic brace ts =
            localsFrom scan isStatic stop front.length [] none brace ts ++
              (read (ds.tokens ++ rest) ++ found ++
                localsFrom scan isStatic stop later.length blocks place'.1 place'.2 rest) ∧
          ((∀ d ∈ ds.list, d.Whole) → read (ds.tokens ++ rest) = locals) ∧
          (read (ds.tokens ++ rest) = locals ↔
            ∀ count tail, Cut rest ds.first ds.others count tail → read tail = locals.drop count) ∧
          ∀ v ∈ found, FoundAside scan isStatic place.1 place.2 (head.tokens ++ ds.tokens) rest v := by
  refine ⟨?_, ?_⟩
  · intro text region members head front rest tokens spelled scope fields read left
    have reads := readsOn_fieldsFrom (head.scope scope)
    have declared : variablesOf (fun d _ => (head.scope scope).variable d.name.name.text) rest ds.first ds.others =
        fields := variablesOf_map ..
    refine ⟨?_, fun whole => ⟨?_, ?_⟩, ?_⟩
    · obtain ⟨before, outline, goesOn⟩ := vars_membersFrom_append scope members
        (head.tokens ++ (ds.tokens ++ rest)) spelled
      refine ⟨before, outline, ?_⟩
      rw [Declarations.ofType, tokens, goesOn, vars_membersFrom_fields]
    · rw [← declared]
      exact ds.read_of_whole reads whole rest
    · exact ds.skipMember_fieldsFrom (head.scope scope) whole rest
    · rw [← declared]
      exact ds.read_eq_iff reads rest
  · intro scan isStatic brace ts front later head inside starts stop place place' rest
    obtain ⟨blocks, found, run, aside⟩ := blockLocals_declaration scan isStatic brace head ds later inside starts
    have reads := readsOn_declarators scan ⟨blocks.headD stop, isStatic⟩ head.type.expr.text
    exact ⟨blocks, found, run, fun whole => ds.read_of_whole reads whole rest, ds.read_eq_iff reads rest, aside⟩

/-- Three declarators, as the fields of a type or as the statement of a block; a value has a block in it. -/
def wholeText : List Char := "class C\x7bS k=new G<A>(x,y),l=h(z=>\x7bW w;\x7d),o;\x7d".toList

def wholeRegion : TypeRegion :=
  { start := 0, bodyStart := 8, stop := 43, name := "C", bases := [], isStatic := false }

theorem valueCode_pair : ValueCode [.word "x", .mark ',', .word "y"] :=
  .plain (isPlain_word _) (by decide) (by decide) <| .plain (isPlain_mark (by decide)) (by decide) (by decide) <|
    .plain (isPlain_word _) (by decide) (by decide) .nil

theorem valueCode_lambda :
    ValueCode [.word "z", .mark '=', .mark '>', .mark '{', .word "W", .word "w", .mark ';', .mark '}'] :=
  .plain (isPlain_word _) (by decide) (by decide) <| .plain (isPlain_mark (by decide)) (by decide) (by decide) <|
    .plain (isPlain_mark (by decide)) (by decide) (by decide) <| .block (nested_statement "W" "w") .nil

def createdValue : PlacedValue where
  equals := 11
  tokens := [⟨.word "new", 12⟩, ⟨.word "G", 16⟩, ⟨.mark '<', 17⟩, ⟨.word "A", 18⟩, ⟨.mark '>', 19⟩, ⟨.mark '(', 20⟩,
    ⟨.word "x", 21⟩, ⟨.mark ',', 22⟩, ⟨.word "y", 23⟩, ⟨.mark ')', 24⟩]
  code := .plain (isPlain_word _) (by decide) (by decide) <| .plain (isPlain_word _) (by decide) (by decide) <|
    .plain (isPlain_mark (by decide)) (by decide) (by decide) <| .plain (isPlain_word _) (by decide) (by decide) <|
    .plain (isPlain_mark (by decide)) (by decide) (by decide) <| .group .paren (by decide) valueCode_pair .nil
  starts := rfl
  present := by decide

def blockValue : PlacedValue where
  equals := 27
  tokens := [⟨.word "h", 28⟩, ⟨.mark '(', 29⟩, ⟨.word "z", 30⟩, ⟨.mark '=', 31⟩, ⟨.mark '>', 32⟩, ⟨.mark '{', 33⟩,
    ⟨.word "W", 34⟩, ⟨.word "w", 36⟩, ⟨.mark ';', 37⟩, ⟨.mark '}', 38⟩, ⟨.mark ')', 39⟩]
  code := .plain (isPlain_word _) (by decide) (by decide) <| .group .paren (by decide) valueCode_lambda .nil
  starts := rfl
  present := by decide

def wholeDeclarators : Declarators where
  first := ⟨⟨{ text := "k" }, 10⟩, some createdValue, 25⟩
  others := [⟨⟨{ text := "l" }, 26⟩, some blockValue, 40⟩, ⟨⟨{ text := "o" }, 41⟩, none, 42⟩]

theorem whole_wholeDeclarators : ∀ d ∈ wholeDeclarators.list, d.Whole := by
  have created : Undivided (createdValue.tokens.map (·.lexeme)) :=
    .plain (isPlain_word _) (by decide) (by decide) <| .plain (isPlain_word _) (by decide) (by decide) <|
      .plain (isPlain_mark (by decide)) (by decide) (by decide) <| .plain (isPlain_word _) (by decide) (by decide) <|
      .plain (isPlain_mark (by decide)) (by decide) (by decide) <| .group .paren valueCode_pair.nested .nil
  have block : Undivided (blockValue.tokens.map (·.lexeme)) :=
    .plain (isPlain_word _) (by decide) (by decide) <| .group .paren valueCode_lambda.nested .nil
  simp only [wholeDeclarators, Declarators.list, List.forall_mem_cons]
  exact ⟨created, block, .nil, by simp⟩

def wholeFieldHead : FieldHead where
  modifiers := []
  type := { expr := simpleType "S" }
  tokens := [⟨.word "S", 8⟩]
  spelled := rfl

def wholeLocalHead : LocalHead where
  words := []
  within := by simp
  wordTokens := []
  spelled := rfl
  type := plainType ⟨{ text := "S" }, 8⟩

theorem declarators_recorded_block :
    (fieldsFrom (wholeFieldHead.scope ⟨⟨wholeText, 43⟩, ⟨8, 43⟩, false⟩) wholeDeclarators.tokens).1.map (·.name) =
        ["k", "l", "o"] ∧
      ∃ found : List Variable,
        (blockLocals ⟨wholeText, 44⟩ false (markAt '{' 7) (tokensFrom 8 (wholeText.drop 8))).map (·.name) =
            ["k", "l", "o"] ++ found.map (·.name) := by
  have spelled : tokensFrom wholeRegion.bodyStart (Text.between wholeRegion.bodyStart
      (min wholeRegion.stop (Text.utf8Length wholeText)) wholeText) =
        [] ++ (wholeFieldHead.tokens ++ (wholeDeclarators.tokens ++ [])) := by decide +kernel
  have inside : insideGroup .brace (tokensFrom 8 (wholeText.drop 8)) =
      [] ++ (wholeLocalHead.tokens ++ wholeDeclarators.tokens ++ []) := by decide +kernel
  have starts : EndsStatement (placeBehind none (markAt '{' 7) []).2 := endsStatement_markAt (by decide) 7
  obtain ⟨ofFields, ofLocals⟩ := declarators_recorded wholeDeclarators
  obtain ⟨-, fields, -⟩ := ofFields wholeText wholeRegion [] wholeFieldHead [] [] spelled rfl
  obtain ⟨blocks, found, record, locals, -⟩ := ofLocals ⟨wholeText, 44⟩ false (markAt '{' 7)
    (tokensFrom 8 (wholeText.drop 8)) [] [] wholeLocalHead inside starts
  refine ⟨?_, found, ?_⟩
  · have declared := (fields whole_wholeDeclarators).1
    rw [List.append_nil] at declared
    exact (congrArg (List.map (·.name)) declared).trans rfl
  · rw [record, locals whole_wholeDeclarators]
    simp only [List.length_nil, localsFrom, List.nil_append, List.append_nil, List.map_append]
    rfl

/-- A value with a list of type arguments. -/
def cutText : List Char := "class C\x7bM d=new M<A,B,C>(),e;\x7d".toList

def cutRegion : TypeRegion :=
  { start := 0, bodyStart := 8, stop := 30, name := "C", bases := [], isStatic := false }

def cutValue : PlacedValue where
  equals := 11
  tokens := [⟨.word "new", 12⟩, ⟨.word "M", 16⟩, ⟨.mark '<', 17⟩, ⟨.word "A", 18⟩, ⟨.mark ',', 19⟩, ⟨.word "B", 20⟩,
    ⟨.mark ',', 21⟩, ⟨.word "C", 22⟩, ⟨.mark '>', 23⟩, ⟨.mark '(', 24⟩, ⟨.mark ')', 25⟩]
  code := .plain (isPlain_word _) (by decide) (by decide) <| .plain (isPlain_word _) (by decide) (by decide) <|
    .plain (isPlain_mark (by decide)) (by decide) (by decide) <| .plain (isPlain_word _) (by decide) (by decide) <|
    .plain (isPlain_mark (by decide)) (by decide) (by decide) <| .plain (isPlain_word _) (by decide) (by decide) <|
    .plain (isPlain_mark (by decide)) (by decide) (by decide) <| .plain (isPlain_word _) (by decide) (by decide) <|
    .plain (isPlain_mark (by decide)) (by decide) (by decide) <| .group .paren (by decide) .nil .nil
  starts := rfl
  present := by decide

def cutDeclarators : Declarators where
  first := ⟨⟨{ text := "d" }, 10⟩, some cutValue, 26⟩
  others := [⟨⟨{ text := "e" }, 27⟩, none, 28⟩]

/-- Type arguments are recorded as fields and as locals, and the declarator behind them is not. -/
theorem type_arguments_are_declarators :
    (tokensFrom 8 (cutText.drop 8)).map (·.lexeme) =
        .word "M" :: (cutDeclarators.tokens.map (·.lexeme) ++ [.mark '}']) ∧
      cutDeclarators.list.map (·.name.name.text) = ["d", "e"] ∧
      (Declarations.ofType cutText cutRegion).vars.map (·.name) = ["d", "B", "C"] ∧
      (blockLocals ⟨cutText, 30⟩ false (markAt '{' 7) (tokensFrom 8 (cutText.drop 8))).map (·.name) = ["d", "B"] := by
  decide +kernel

end Typeahead.Source
