import Typeahead.Proofs.Source.LocalOrigins
import Typeahead.Proofs.Source.TypeExpr

namespace Typeahead.Source

/-- A parameter, without a word for the way it is passed. -/
structure ParameterSyntax where
  type : TypeExpr
  name : Name
  unmarked : type.head.text ∉ parameterWords := by decide

def ParameterSyntax.lexemes (p : ParameterSyntax) : List Lexeme := p.type.lexemes ++ [.word p.name.text]

def ParameterSyntax.parameter (p : ParameterSyntax) : Parameter := ⟨p.type.text, p.name.text⟩

/-- The parameters with a comma between any two. -/
def parametersLexemes : List ParameterSyntax → List Lexeme
  | [] => []
  | [p] => p.lexemes
  | p :: next :: others => p.lexemes ++ .mark ',' :: parametersLexemes (next :: others)

/-- The type of a member; its first word is neither a modifier nor one that starts a nested type. -/
structure MemberType where
  expr : TypeExpr
  unmodified : expr.head.text ∉ modifierWords := by decide
  unnested : expr.head.text ∉ nestedTypeWords := by decide

/-- A body in braces, or an expression after an arrow. -/
inductive BodySyntax where
  | block (code : List Lexeme) (nested : Nested code)
  | arrow (value : List Lexeme) (clause : Clause value)

def BodySyntax.lexemes : BodySyntax → List Lexeme
  | block code _ => .mark '{' :: (code ++ [.mark '}'])
  | arrow value _ => .mark '=' :: .mark '>' :: (value ++ [.mark ';'])

abbrev Modifiers := List { word : String // word ∈ modifierWords }

def Modifiers.lexemes (modifiers : Modifiers) : List Lexeme := modifiers.map fun word => .word word.val

/-- Whether a member with the modifiers is static in a type that is static or not. -/
def Modifiers.isStatic (modifiers : Modifiers) (typeIsStatic : Bool) : Bool :=
  typeIsStatic || modifiers.any fun word => ["static", "const"].contains word.val

/-- A member of a type. -/
inductive MemberSyntax where
  /-- `returns name(parameters)` with a body, or with a semicolon in its place. -/
  | method (modifiers : Modifiers) (returns : MemberType) (name : Name) (parameters : List ParameterSyntax)
      (body : Option BodySyntax)
  | property (modifiers : Modifiers) (type : MemberType) (name : Name) (body : BodySyntax)
  | field (modifiers : Modifiers) (type : MemberType) (name : Name)
  /-- `keyword header { code }`, where the header holds the name and all that follows it. -/
  | nestedType (modifiers : Modifiers) (keyword : { word : String // word ∈ nestedTypeWords })
      (header : List Lexeme) (clause : Clause header) (code : List Lexeme) (nested : Nested code)

namespace MemberSyntax

def lexemes : MemberSyntax → List Lexeme
  | method modifiers returns name parameters body =>
    modifiers.lexemes ++ returns.expr.lexemes ++ .word name.text :: .mark '(' ::
      (parametersLexemes parameters ++ .mark ')' :: (body.map BodySyntax.lexemes).getD [.mark ';'])
  | property modifiers type name body => modifiers.lexemes ++ type.expr.lexemes ++ .word name.text :: body.lexemes
  | field modifiers type name => modifiers.lexemes ++ type.expr.lexemes ++ [.word name.text, .mark ';']
  | nestedType modifiers keyword header _ code _ =>
    modifiers.lexemes ++ .word keyword.val :: (header ++ .mark '{' :: (code ++ [.mark '}']))

end MemberSyntax

/-- A declaration of a member without its place. -/
structure Entry where
  name : String
  typeName : String
  isStatic : Bool
  parameters : List Parameter := []
  deriving DecidableEq, Repr

def Method.entry (m : Method) : Entry := ⟨m.name, m.returnType, m.isStatic, m.parameters⟩

def Property.entry (p : Property) : Entry := { name := p.name, typeName := p.returnType, isStatic := p.isStatic }

def Variable.entry (v : Variable) : Entry := { name := v.name, typeName := v.typeName, isStatic := v.isStatic }

/-- The methods, properties and fields of a type, each in source order. -/
structure Outline where
  methods : List Entry := []
  properties : List Entry := []
  fields : List Entry := []
  deriving DecidableEq, Repr

instance : Append Outline where
  append a b :=
    { methods := a.methods ++ b.methods, properties := a.properties ++ b.properties, fields := a.fields ++ b.fields }

def Declarations.outline (ds : Declarations) : Outline :=
  { methods := ds.methods.map Method.entry
    properties := ds.properties.map Property.entry
    fields := (ds.vars.filter (·.kind == .field)).map Variable.entry }

/-- What a member declares in a type that is static or not. -/
def MemberSyntax.outline (typeIsStatic : Bool) : MemberSyntax → Outline
  | method modifiers returns name parameters _ =>
    { methods := [⟨name.text, returns.expr.text, modifiers.isStatic typeIsStatic,
        parameters.map ParameterSyntax.parameter⟩] }
  | property modifiers type name _ =>
    { properties := [{ name := name.text, typeName := type.expr.text, isStatic := modifiers.isStatic typeIsStatic }] }
  | field modifiers type name =>
    { fields := [{ name := name.text, typeName := type.expr.text, isStatic := modifiers.isStatic typeIsStatic }] }
  | nestedType .. => {}

/-- What members declare together, in order. -/
def Outline.ofMembers (typeIsStatic : Bool) (members : List MemberSyntax) : Outline :=
  members.foldr (fun m later => m.outline typeIsStatic ++ later) {}

theorem Outline.append_eq (a b : Outline) :
    a ++ b = ⟨a.methods ++ b.methods, a.properties ++ b.properties, a.fields ++ b.fields⟩ := rfl

theorem Declarations.outline_append (a b : Declarations) : (a ++ b).outline = a.outline ++ b.outline := by
  have fields := congrArg (List.map Variable.entry)
    (List.filter_append (p := fun v => v.kind == .field) a.vars b.vars)
  rw [List.map_append] at fields
  exact congr (congr (congrArg Outline.mk List.map_append) List.map_append) fields

theorem filter_field_blockLocals (scan : Scan) (isStatic : Bool) (brace : Token) (ts : List Token) :
    (blockLocals scan isStatic brace ts).filter (·.kind == .field) = [] := by
  rw [List.filter_eq_nil_iff]
  intro v declared
  simp [kind_of_mem_localsFrom declared]

section Reading

variable {scan : Scan} {scope : BodyScope} {t name opening closing : Token} {ts rest inside : List Token}

theorem word?_of_eq {word : String} (isWord : t.lexeme = .word word) : t.word? = some word := by
  simp [Token.word?, isWord]

theorem lexeme_of_word? {word : String} (isWord : t.word? = some word) : t.lexeme = .word word := by
  unfold Token.word? at isWord
  split at isWord
  · next text spelled => rw [spelled, Option.some.inj isWord]
  · simp at isWord

theorem dropWords_of_ends {set : List String} (ends : (nextWord? rest).any set.contains = false) :
    dropWords set rest = rest := by
  cases rest with
  | nil => rfl
  | cons t rest => exact List.dropWhile_cons_of_neg (by simpa [nextWord?] using ends)

theorem dropWords_append {set words : List String} (spelled : ts.map (·.lexeme) = words.map .word)
    (within : ∀ word ∈ words, word ∈ set) (ends : (nextWord? rest).any set.contains = false) :
    dropWords set (ts ++ rest) = rest := by
  induction words generalizing ts with
  | nil =>
    obtain rfl := List.map_eq_nil_iff.mp spelled
    exact dropWords_of_ends ends
  | cons word words ih =>
    obtain ⟨t, more, rfl, isWord, after⟩ := List.map_eq_cons_iff.mp spelled
    have member : word ∈ set := within word List.mem_cons_self
    have passes : (t.word?.any set.contains) = true := by simp [word?_of_eq isWord, member]
    rw [List.cons_append, dropWords, List.dropWhile_cons, if_pos passes]
    exact ih after fun other inside => within other (List.mem_cons_of_mem word inside)

theorem takeWhile_words_append {set words : List String} (spelled : ts.map (·.lexeme) = words.map .word)
    (within : ∀ word ∈ words, word ∈ set) (ends : (nextWord? rest).any set.contains = false) :
    ((ts ++ rest).takeWhile fun t => t.word?.any set.contains).filterMap Token.word? = words := by
  induction words generalizing ts with
  | nil =>
    obtain rfl := List.map_eq_nil_iff.mp spelled
    cases rest with
    | nil => rfl
    | cons t rest =>
      rw [List.nil_append, List.takeWhile_cons_of_neg (by simpa [nextWord?] using ends)]
      rfl
  | cons word words ih =>
    obtain ⟨t, more, rfl, isWord, after⟩ := List.map_eq_cons_iff.mp spelled
    have member : word ∈ set := within word List.mem_cons_self
    have passes : (t.word?.any set.contains) = true := by simp [word?_of_eq isWord, member]
    rw [List.cons_append, List.takeWhile_cons, if_pos passes, List.filterMap_cons_some (word?_of_eq isWord),
      ih after fun other inside => within other (List.mem_cons_of_mem word inside)]

/-- A type expression starts with its first word. -/
theorem nextWord?_expr {e : TypeExpr} (spelled : ts.map (·.lexeme) = e.lexemes) (rest : List Token) :
    nextWord? (ts ++ rest) = some e.head.text := by
  obtain ⟨head, path, arguments, isNullable, commas⟩ := e
  obtain ⟨word, more, rfl, isWord, _⟩ := List.map_eq_cons_iff.mp spelled
  exact nextWord?_word isWord

theorem afterComma_nil : afterComma [] = [] := by
  rw [afterComma]

theorem afterComma_comma (isComma : t.lexeme = .mark ',') : afterComma (t :: rest) = rest := by
  have bare : t.lexeme.IsPlain := isComma ▸ isPlain_mark (by decide)
  rw [afterComma, opens?_plain bare, isMark_of_eq isComma]
  rfl

/-- A parameter is read up to the comma after it. -/
theorem parameterAt_parameter {p : ParameterSyntax} (spelled : ts.map (·.lexeme) = p.lexemes)
    (rest : List Token) :
    ∃ start, parameterAt (ts ++ rest) = (some ⟨p.parameter, start⟩, afterComma rest) := by
  obtain ⟨type, tail, rfl, spelledType, spelledName⟩ := List.map_eq_append_iff.mp spelled
  obtain ⟨name, tail, rfl, isName, after⟩ := List.map_eq_cons_iff.mp spelledName
  obtain rfl := List.map_eq_nil_iff.mp after
  refine ⟨name.start, ?_⟩
  rw [List.append_assoc, List.singleton_append, parameterAt,
    dropWords_of_ends (by simp [nextWord?_expr spelledType, p.unmarked])]
  simp only [readType?_expr spelledType (endsType_word isName), nextName?_name isName]
  rfl

theorem parametersFrom_parameter {p : ParameterSyntax} (spelled : ts.map (·.lexeme) = p.lexemes)
    (rest : List Token) :
    (parametersFrom (ts ++ rest)).map (·.parameter) =
      p.parameter :: (parametersFrom (afterComma rest)).map (·.parameter) := by
  obtain ⟨start, read⟩ := parameterAt_parameter spelled rest
  obtain ⟨type, tail, rfl, spelledType, _⟩ := List.map_eq_append_iff.mp spelled
  have word := nextWord?_expr spelledType (tail ++ rest)
  rw [← List.append_assoc] at word
  cases shape : type ++ tail ++ rest with
  | nil => simp [shape, nextWord?] at word
  | cons t more =>
    rw [shape] at word read
    have notSquare : t.isMark '[' = false := isMark_eq_false (by simp [lexeme_of_word? word])
    rw [parametersFrom, notSquare, read]
    rfl

/-- The parameters of a list are read in order. -/
theorem parametersFrom_parameters {parameters : List ParameterSyntax}
    (spelled : ts.map (·.lexeme) = parametersLexemes parameters) :
    (parametersFrom ts).map (·.parameter) = parameters.map ParameterSyntax.parameter := by
  induction parameters generalizing ts with
  | nil =>
    obtain rfl := List.map_eq_nil_iff.mp spelled
    rw [parametersFrom]
    rfl
  | cons p others ih =>
    cases others with
    | nil =>
      have alone := parametersFrom_parameter spelled []
      rw [List.append_nil, afterComma_nil, parametersFrom] at alone
      exact alone
    | cons next others =>
      obtain ⟨front, back, rfl, spelledFirst, tail⟩ := List.map_eq_append_iff.mp spelled
      obtain ⟨comma, back, rfl, isComma, after⟩ := List.map_eq_cons_iff.mp tail
      rw [parametersFrom_parameter spelledFirst, afterComma_comma isComma, ih after]
      rfl

theorem nested_parametersLexemes (parameters : List ParameterSyntax) : Nested (parametersLexemes parameters) := by
  have one (p : ParameterSyntax) : Nested p.lexemes := p.type.nested_lexemes.append (.plain (isPlain_word _) .nil)
  induction parameters with
  | nil => exact .nil
  | cons p others ih =>
    cases others with
    | nil => exact one p
    | cons next others => exact (one p).append (.plain (isPlain_mark (by decide)) ih)

theorem dropTypeParameters_of_not_angle (ends : nextIs '<' rest = false) : dropTypeParameters rest = rest := by
  rw [dropTypeParameters, ends]
  rfl

/-- A member that ends in a semicolon or in a block, for what follows its arrow or its keyword. -/
theorem skipMember_arrow {value : List Lexeme} {equals arrow : Token} (isEquals : equals.lexeme = .mark '=')
    (isArrow : arrow.lexeme = .mark '>') (clause : Clause value)
    (spelled : ts.map (·.lexeme) = value ++ [.mark ';']) (rest : List Token) :
    skipMember (equals :: arrow :: (ts ++ rest)) = rest := by
  obtain ⟨inner, tail, rfl, spelledValue, spelledEnd⟩ := List.map_eq_append_iff.mp spelled
  obtain ⟨ends, tail, rfl, isEnd, after⟩ := List.map_eq_cons_iff.mp spelledEnd
  obtain rfl := List.map_eq_nil_iff.mp after
  have whole : Clause ((equals :: arrow :: inner).map (·.lexeme)) := by
    simp only [List.map_cons, isEquals, isArrow, spelledValue]
    exact .plain (isPlain_mark (by decide)) (by decide) (.plain (isPlain_mark (by decide)) (by decide) clause)
  have skipped := skipMember_semicolon whole isEnd rest
  simpa using skipped

theorem filter_field_methodBody (scan : Scan) (isStatic : Bool) (ts : List Token) :
    (methodBody scan isStatic ts).locals.filter (·.kind == .field) = [] := by
  unfold methodBody
  split
  · rfl
  · simp only
    split
    · exact filter_field_blockLocals ..
    · split <;> rfl

/-- The body of a method, or the semicolon in its place, is read to its end. -/
theorem methodBody_body {body : Option BodySyntax} {isStatic : Bool}
    (spelled : ts.map (·.lexeme) = (body.map BodySyntax.lexemes).getD [.mark ';']) :
    (methodBody scan isStatic (fromBody (ts ++ rest))).rest = rest := by
  match body with
  | none =>
    obtain ⟨ends, tail, rfl, isEnd, after⟩ := List.map_eq_cons_iff.mp spelled
    obtain rfl := List.map_eq_nil_iff.mp after
    rw [List.singleton_append, fromBody]
    simp [Token.isMark, isEnd, methodBody]
  | some (.block code nested) =>
    obtain ⟨opening, tail, rfl, isOpening, inside⟩ := List.map_eq_cons_iff.mp spelled
    obtain ⟨inner, tail, rfl, spelledCode, spelledEnd⟩ := List.map_eq_append_iff.mp inside
    obtain ⟨closing, tail, rfl, isClosing, after⟩ := List.map_eq_cons_iff.mp spelledEnd
    obtain rfl := List.map_eq_nil_iff.mp after
    have ends : afterCloser .brace (inner ++ closing :: rest) = rest :=
      afterCloser_group .brace (spelledCode ▸ nested) isClosing rest
    rw [List.cons_append, fromBody]
    simp [Token.isMark, isOpening, methodBody, ends]
  | some (.arrow value clause) =>
    obtain ⟨equals, tail, rfl, isEquals, tail'⟩ := List.map_eq_cons_iff.mp spelled
    obtain ⟨arrow, tail, rfl, isArrow, spelledValue⟩ := List.map_eq_cons_iff.mp tail'
    have ends := skipMember_arrow isEquals isArrow clause spelledValue rest
    have next : nextIs '>' (arrow :: (tail ++ rest)) = true := by simp [nextIs, Token.isMark, isArrow]
    rw [List.cons_append, List.cons_append, fromBody, next]
    simp [Token.isMark, isEquals, methodBody, ends]

theorem outline_methodFrom (scan : Scan) (isStatic : Bool) (head : MethodHead) (ts : List Token) :
    (methodFrom scan isStatic (some head) ts).1.outline =
      { methods := [⟨head.name, head.returnType, isStatic,
          (parametersFrom (insideGroup .paren ts)).map (·.parameter)⟩] } := by
  unfold methodFrom
  simp only [Declarations.outline_append]
  cases (methodBody scan isStatic (fromBody (afterCloser .paren ts))).span with
  | none => rfl
  | some span =>
    have none := filter_field_methodBody scan isStatic (fromBody (afterCloser .paren ts))
    simp [Declarations.outline, Outline.append_eq, none, Method.entry, List.filter_map, Function.comp_def]

/-- A method whose name has been read. -/
theorem namedMember_method (scope : BodyScope) (head : MemberHead) (text : String) (name : Token)
    {parameters : List ParameterSyntax} {body : Option BodySyntax} {after : List Token}
    (isOpening : opening.lexeme = .mark '(')
    (spelledParameters : ts.map (·.lexeme) = parametersLexemes parameters) (isClosing : closing.lexeme = .mark ')')
    (spelledBody : after.map (·.lexeme) = (body.map BodySyntax.lexemes).getD [.mark ';']) (rest skip : List Token) :
    let read := namedMember scope head text (name :: opening :: (ts ++ closing :: (after ++ rest))) skip
    read.1.outline = { methods := [⟨text, head.typeName, head.isStatic,
        parameters.map ParameterSyntax.parameter⟩] } ∧ read.2 = rest := by
  have nested : Nested (ts.map (·.lexeme)) := spelledParameters ▸ nested_parametersLexemes parameters
  have inside := insideGroup_group .paren nested isClosing (after ++ rest)
  have later := afterCloser_group .paren nested isClosing (after ++ rest)
  have noAngle : nextIs '<' (opening :: (ts ++ closing :: (after ++ rest))) = false := by
    rw [nextIs_mark isOpening]
    rfl
  simp only [namedMember, List.drop_succ_cons, List.drop_zero, dropTypeParameters_of_not_angle noAngle,
    isMark_of_eq isOpening, if_true]
  refine ⟨?_, ?_⟩
  · rw [outline_methodFrom, inside, parametersFrom_parameters spelledParameters]
  · show (methodBody scope.scan head.isStatic
      (fromBody (afterCloser .paren (ts ++ closing :: (after ++ rest))))).rest = rest
    rw [later, methodBody_body spelledBody]

/-- A property whose name has been read. -/
theorem namedMember_property (scope : BodyScope) (head : MemberHead) (text : String) (name : Token)
    {body : BodySyntax} (spelled : ts.map (·.lexeme) = body.lexemes) (rest skip : List Token) :
    let read := namedMember scope head text (name :: (ts ++ rest)) skip
    read.1.outline = { properties := [{ name := text, typeName := head.typeName, isStatic := head.isStatic }] } ∧
      read.2 = rest := by
  cases body with
  | block code nested =>
    obtain ⟨opening, tail, rfl, isOpening, inside⟩ := List.map_eq_cons_iff.mp spelled
    obtain ⟨inner, tail, rfl, spelledCode, spelledEnd⟩ := List.map_eq_append_iff.mp inside
    obtain ⟨closing, tail, rfl, isClosing, after⟩ := List.map_eq_cons_iff.mp spelledEnd
    obtain rfl := List.map_eq_nil_iff.mp after
    have ends : afterCloser .brace (inner ++ closing :: rest) = rest :=
      afterCloser_group .brace (spelledCode ▸ nested) isClosing rest
    have noAngle : nextIs '<' (opening :: (inner ++ closing :: rest)) = false := by
      rw [nextIs_mark isOpening]
      rfl
    have notParen : opening.isMark '(' = false := isMark_eq_false (by simp [isOpening])
    simp [namedMember, dropTypeParameters_of_not_angle noAngle, isMark_of_eq isOpening, notParen,
      Declarations.outline, filter_field_blockLocals, Property.entry, ends]
  | arrow value clause =>
    obtain ⟨equals, tail, rfl, isEquals, tail'⟩ := List.map_eq_cons_iff.mp spelled
    obtain ⟨arrow, tail, rfl, isArrow, spelledValue⟩ := List.map_eq_cons_iff.mp tail'
    have ends := skipMember_arrow isEquals isArrow clause spelledValue rest
    have noAngle : nextIs '<' (equals :: arrow :: (tail ++ rest)) = false := by
      rw [nextIs_mark isEquals]
      rfl
    have next : nextIs '>' (arrow :: (tail ++ rest)) = true := by simp [nextIs, Token.isMark, isArrow]
    have notParen : equals.isMark '(' = false := isMark_eq_false (by simp [isEquals])
    have notBrace : equals.isMark '{' = false := isMark_eq_false (by simp [isEquals])
    simp [namedMember, dropTypeParameters_of_not_angle noAngle, isMark_of_eq isEquals, notParen, notBrace, next,
      Declarations.outline, Property.entry, ends]

/-- A field whose name has been read, for the name and the semicolon after it. -/
theorem namedMember_field (scope : BodyScope) (head : MemberHead) {word : Name} {ends : Token}
    (isName : name.lexeme = .word word.text) (isEnd : ends.lexeme = .mark ';') (rest skip : List Token) :
    let read := namedMember scope head word.text (name :: ends :: rest) skip
    read.1.outline = { fields := [{ name := word.text, typeName := head.typeName, isStatic := head.isStatic }] } ∧
      read.2 = rest := by
  have noAngle : nextIs '<' (ends :: rest) = false := by
    rw [nextIs_mark isEnd]
    rfl
  have notMark {c : Char} (other : ';' ≠ c) : ends.isMark c = false := isMark_eq_false (by simp [isEnd, other])
  have notNext {c : Char} (other : ';' ≠ c) : nextIs c (ends :: rest) = false := by
    rw [nextIs_mark isEnd]
    exact beq_false_of_ne other
  have one (scope : FieldScope) :
      fieldsFrom scope (name :: ends :: rest) = ([scope.variable word.text], ends :: rest) := by
    rw [fieldsFrom, nextName?_name isName]
    simp [notNext (c := '=') (by decide), notNext (c := ',') (by decide)]
  have nothing : Clause (([] : List Token).map (·.lexeme)) := .nil
  have skipped : skipMember (ends :: rest) = rest := skipMember_semicolon nothing isEnd rest
  simp [namedMember, dropTypeParameters_of_not_angle noAngle, notMark (c := '(') (by decide),
    notMark (c := '{') (by decide), notMark (c := '=') (by decide), isMark_of_eq isEnd, one, skipped,
    Declarations.outline, FieldScope.variable, Variable.entry]

end Reading

end Typeahead.Source
