import Typeahead.Proofs.Source.LocalsAt

namespace Typeahead.Source

def markAt (c : Char) (start : Nat) : Token := ⟨.mark c, start⟩

/-- A name where it stands. -/
structure PlacedName where
  name : Name
  start : Nat

def PlacedName.token (placed : PlacedName) : Token := ⟨.word placed.name.text, placed.start⟩

/-- The type of a declaration. Its first word is none that can stand in front of a type in a statement, and
`var` stands alone. -/
structure PlacedType where
  expr : TypeExpr
  tokens : List Token
  spelled : tokens.map (·.lexeme) = expr.lexemes := by decide
  unmarked : expr.head.text ∉ statementWords := by decide
  alone : expr.head.text = "var" → expr = .named expr.head

/-- An expression where it stands. -/
structure PlacedExpr where
  expr : Expr
  tokens : List Token
  spelled : tokens.map (·.lexeme) = expr.lexemes := by decide

/-- The type recorded for a variable with a value up to the semicolon at `stop`, and the initializer that is
kept to infer it: the text of the value for `var`. -/
def PlacedExpr.typed (scan : Scan) (written : String) (value : PlacedExpr) (stop : Nat) :
    String × Option Initializer :=
  if written = "var" then
    if value.expr.head ∈ ["true", "false"] then ("bool", none)
    else ("var", some (.expression (scan.textBetween value.tokens [markAt ';' stop])))
  else (written, none)

/-- A statement of a body. -/
inductive Statement where
  /-- `type name;` -/
  | declaration (type : PlacedType) (name : PlacedName) (stop : Nat)
  /-- `type name = value;` -/
  | initialized (type : PlacedType) (name : PlacedName) (equals : Nat) (value : PlacedExpr) (stop : Nat)
  /-- `value;` -/
  | expression (value : PlacedExpr) (stop : Nat)
  | block (opening : Nat) (body : List Statement) (closing : Nat)

namespace Statement

mutual

def tokens : Statement → List Token
  | declaration type name stop => type.tokens ++ [name.token, markAt ';' stop]
  | initialized type name equals value stop =>
    type.tokens ++ name.token :: markAt '=' equals :: (value.tokens ++ [markAt ';' stop])
  | expression value stop => value.tokens ++ [markAt ';' stop]
  | block opening body closing => markAt '{' opening :: (listTokens body ++ [markAt '}' closing])

def listTokens : List Statement → List Token
  | [] => []
  | s :: later => s.tokens ++ listTokens later

end

section Locals

variable (scan : Scan) (isStatic : Bool)

/-- A local that holds from its name to the end of a block. -/
def localOf (name : PlacedName) (typed : String × Option Initializer) (stop : Nat) : Variable :=
  { name := name.name.text, typeName := typed.1, span := ⟨name.start, stop⟩, isStatic, kind := .localVariable
    initializer := typed.2 }

mutual

/-- The locals declared in a statement of a block that ends at `stop`. -/
def locals (stop : Nat) : Statement → List Variable
  | declaration type name _ => [localOf isStatic name (type.expr.text, none) stop]
  | initialized type name _ value ends => [localOf isStatic name (value.typed scan type.expr.text ends) stop]
  | expression _ _ => []
  | block _ body closing => listLocals closing body

def listLocals (stop : Nat) : List Statement → List Variable
  | [] => []
  | s :: later => s.locals stop ++ listLocals stop later

end

end Locals

end Statement

theorem PlacedExpr.nested (value : PlacedExpr) : Nested (value.tokens.map (·.lexeme)) :=
  value.spelled ▸ value.expr.nested_lexemes

theorem PlacedExpr.exists_tokens (value : PlacedExpr) :
    ∃ t more, value.tokens = t :: more ∧ t.lexeme = .word value.expr.head := by
  obtain ⟨later, shape⟩ := value.expr.exists_lexemes
  obtain ⟨t, more, eq, isWord, -⟩ := List.map_eq_cons_iff.mp (value.spelled.trans shape)
  exact ⟨t, more, eq, isWord⟩

theorem PlacedType.nested (type : PlacedType) : Nested (type.tokens.map (·.lexeme)) :=
  type.spelled ▸ type.expr.nested_lexemes

namespace Statement

mutual

theorem nested_tokens : ∀ s : Statement, Nested (s.tokens.map (·.lexeme))
  | declaration type name stop => by
    rw [tokens, List.map_append]
    exact type.nested.append (.plain (isPlain_word _) (.plain (isPlain_mark (by decide)) .nil))
  | initialized type name equals value stop => by
    rw [tokens, List.map_append, List.map_cons, List.map_cons, List.map_append]
    exact type.nested.append (.plain (isPlain_word _) (.plain (isPlain_mark (by decide))
      (value.nested.append (.plain (isPlain_mark (by decide)) .nil))))
  | expression value stop => by
    rw [tokens, List.map_append]
    exact value.nested.append (.plain (isPlain_mark (by decide)) .nil)
  | block opening body closing => by
    rw [tokens, List.map_cons, List.map_append]
    exact .group .brace (nested_listTokens body) .nil

theorem nested_listTokens : ∀ statements : List Statement, Nested ((listTokens statements).map (·.lexeme))
  | [] => .nil
  | s :: later => by
    rw [listTokens, List.map_append]
    exact (nested_tokens s).append (nested_listTokens later)

end

end Statement

variable {stop n outer : Nat} {ts rest : List Token} {follow : Token}
variable {scan : Scan} {isStatic : Bool} {scope : LocalScope} {blocks : List Nat} {before : Option Token}
  {previous : Token}

/-- A token that a statement can come after. -/
def EndsStatement (t : Token) : Prop := ∃ c ∈ ['{', ';', '}'], t.lexeme = .mark c

theorem endsStatement_markAt {c : Char} (ends : c ∈ ['{', ';', '}']) (start : Nat) : EndsStatement (markAt c start) :=
  ⟨c, ends, rfl⟩

theorem localsAt_of_endsStatement (ends : EndsStatement previous) :
    localsAt scan scope before previous ts = statementLocals scan scope ts := by
  obtain ⟨c, inside, isMark⟩ := ends
  simp only [List.mem_cons, List.not_mem_nil, or_false] at inside
  rcases inside with rfl | rfl | rfl <;> simp [localsAt, Token.isMark, isMark]

theorem variable_eq_localOf {name : PlacedName} (typed : String × Option Initializer) (order : name.start ≤ stop) :
    (⟨stop, isStatic⟩ : LocalScope).variable name.name.text name.start typed =
      Statement.localOf isStatic name typed stop := by
  simp only [LocalScope.variable, Statement.localOf, Span.of, Nat.max_eq_left order]

/-- The type of a declaration is read before its name. -/
theorem declaredType?_placedType (type : PlacedType) (ends : EndsType rest) :
    declaredType? (dropWords statementWords (type.tokens ++ rest)) = some (type.expr.text, rest) := by
  have first := nextWord?_expr type.spelled rest
  rw [dropWords_of_ends (by simp [first, type.unmarked]), declaredType?, first]
  by_cases isVar : type.expr.head.text = "var"
  · have text : type.expr.text = "var" := by rw [type.alone isVar, TypeExpr.text_named, isVar]
    have one : type.tokens.map (·.lexeme) = [.word type.expr.head.text] := by
      rw [type.spelled, type.alone isVar, TypeExpr.lexemes_named]
      rfl
    obtain ⟨t, later, shape, -, none⟩ := List.map_eq_cons_iff.mp one
    obtain rfl := List.map_eq_nil_iff.mp none
    simp [isVar, text, shape]
  · rw [readType?_expr type.spelled ends]
    simp [isVar]

theorem statementLocals_declaration (type : PlacedType) (name : PlacedName) (isEnd : follow.lexeme = .mark ';') :
    statementLocals scan scope (type.tokens ++ name.token :: follow :: rest) =
      [scope.variable name.name.text name.start (type.expr.text, none)] := by
  have isName : nextName? [name.token] = some name.name.text := nextName?_name rfl
  have notEquals : follow.isMark '=' = false := isMark_eq_false (by simp [isEnd])
  have notComma : follow.isMark ',' = false := isMark_eq_false (by simp [isEnd])
  rw [statementLocals, declaredType?_placedType type (endsType_word rfl)]
  simp only
  rw [declarators, isName]
  simp [notEquals, notComma, isMark_of_eq isEnd, PlacedName.token]

theorem initializedType_value (value : PlacedExpr) (written : String) (ends : Nat) (rest : List Token) :
    initializedType scan written (value.tokens ++ markAt ';' ends :: rest) (markAt ';' ends :: rest) =
      value.typed scan written ends := by
  have inferred : inferType scan (value.tokens ++ markAt ';' ends :: rest) (markAt ';' ends :: rest) = _ :=
    inferType_expr scan value.spelled rfl rest
  have text : scan.textBetween (value.tokens ++ markAt ';' ends :: rest) (markAt ';' ends :: rest) =
      scan.textBetween value.tokens [markAt ';' ends] := by
    obtain ⟨t, more, eq, -⟩ := value.exists_tokens
    rw [eq]
    rfl
  rw [initializedType, inferred, text, PlacedExpr.typed]

theorem statementLocals_initialized (type : PlacedType) (name : PlacedName) (equals : Nat) (value : PlacedExpr)
    (ends : Nat) :
    statementLocals scan scope
        (type.tokens ++ name.token :: markAt '=' equals :: (value.tokens ++ markAt ';' ends :: rest)) =
      [scope.variable name.name.text name.start (value.typed scan type.expr.text ends)] := by
  have isName : nextName? [name.token] = some name.name.text := nextName?_name rfl
  have isEquals : (markAt '=' equals).isMark '=' = true := isMark_of_eq rfl
  have notArrow : nextIs '>' (value.tokens ++ markAt ';' ends :: rest) = false := by
    obtain ⟨t, more, eq, isWord⟩ := value.exists_tokens
    rw [eq]
    exact nextIs_word isWord
  have last : expressionEnd (value.tokens ++ markAt ';' ends :: rest) = markAt ';' ends :: rest := by
    rw [expressionEnd_expr value.expr _ _ value.spelled, expressionEnd_semicolon rfl]
  have notComma : nextIs ',' (markAt ';' ends :: rest) = false := by
    rw [nextIs_mark rfl]
    rfl
  rw [statementLocals, declaredType?_placedType type (endsType_word rfl)]
  simp only
  rw [declarators, isName]
  simp only [isEquals, notArrow, last, notComma, initializedType_value, if_true, Bool.false_eq_true, if_false]
  rfl

/-- The search reads a declaration at its first word and finds nothing more up to the mark after its name. -/
theorem localsFrom_declared (type : PlacedType) (name : PlacedName) {c : Char} (isFollow : follow.lexeme = .mark c)
    (inside : c ∈ [';', '=']) (starts : EndsStatement previous) :
    localsFrom scan isStatic outer (type.tokens.length + (n + 2)) blocks before previous
        (type.tokens ++ name.token :: follow :: rest) =
      statementLocals scan ⟨blocks.headD outer, isStatic⟩ (type.tokens ++ name.token :: follow :: rest) ++
        localsFrom scan isStatic outer n blocks (some name.token) follow rest := by
  have chain := type.expr.inert_lexemes [.mark ';'] ⟨⟨';', [], rfl, by decide⟩, .singleton _⟩
  have bare : c ∉ ['.', '<', '?', '[', ':'] ∧ c ≠ '{' ∧ c ≠ '}' := by
    rcases List.mem_pair.mp inside with rfl | rfl <;> decide
  obtain ⟨later, shape⟩ := type.expr.lexemes_eq
  obtain ⟨first, others, eq, isFirst, spelled⟩ := List.map_eq_cons_iff.mp (type.spelled.trans shape)
  rw [shape, ← isFirst, ← spelled] at chain
  obtain ⟨before', last, inert, run⟩ := localsFrom_inert (some previous) first chain
  have notOpening : first.lexeme ≠ .mark '{' := by simp [isFirst]
  have notClosing : first.lexeme ≠ .mark '}' := by simp [isFirst]
  have count : (first :: others).length + (n + 2) = others.length + (n + 1 + 1) + 1 := by
    simp only [List.length_cons]
    omega
  rw [eq, count, List.cons_append, localsFrom, isMark_eq_false notOpening, isMark_eq_false notClosing,
    localsAt_of_endsStatement starts]
  simp only [Bool.false_eq_true, if_false]
  rw [run, localsFrom_quiet (by simp [PlacedName.token]) (by simp [PlacedName.token])
    (localsAt_name inert rfl isFollow bare.1), localsFrom_quiet (by simpa [isFollow] using bare.2.1)
    (by simpa [isFollow] using bare.2.2) (localsAt_mark isFollow)]

/-- The search finds nothing in a value after a mark. -/
theorem localsFrom_value (before : Option Token) (previous : Token) (value : PlacedExpr) (ends : Nat) {c : Char}
    (isMark : previous.lexeme = .mark c) :
    ∃ before', ∀ scan isStatic outer n blocks rest,
      localsFrom scan isStatic outer (value.tokens.length + (n + 1)) blocks before previous
          (value.tokens ++ markAt ';' ends :: rest) =
        localsFrom scan isStatic outer n blocks before' (markAt ';' ends) rest := by
  have chain := value.expr.chain_lexemes ';' [] (by decide) (.singleton _)
  rw [← value.spelled] at chain
  exact localsFrom_expression before previous rfl chain fun _ _ => ⟨c, isMark⟩

end Typeahead.Source
