import Typeahead.Source.Declaration
import Typeahead.Source.WrittenType

namespace Typeahead.Source

/-- The tokens from the first semicolon, comma or closing bracket outside every group; none left when a
group is not closed. -/
def expressionEnd : List Token → List Token
  | [] => []
  | t :: ts =>
    match t.opens? with
    | some kind => expressionEnd (afterCloser kind ts)
    | none => if t.isMark ';' || t.isMark ',' || t.closesAny then t :: ts else expressionEnd ts
termination_by ts => ts.length
decreasing_by
  · have := afterCloser_length_le kind ts; simp only [List.length_cons]; omega
  · simp

theorem expressionEnd_length_le (ts : List Token) : (expressionEnd ts).length ≤ ts.length := by
  fun_induction expressionEnd ts with
  | case1 => exact Nat.le_refl _
  | case2 t ts kind _ ih =>
    have := afterCloser_length_le kind ts; simp only [List.length_cons]; omega
  | case3 => exact Nat.le_refl _
  | case4 t ts _ _ ih => simp only [List.length_cons]; omega

/-- A type, or the word `var`. -/
def declaredType? (ts : List Token) : Option (String × List Token) :=
  if nextWord? ts == some "var" then some ("var", ts.drop 1) else readType? ts

/-- The type after `new`; an array of it when a size follows. -/
def createdType? : List Token → Option String
  | [] => none
  | t :: ts =>
    if t.word? == some "new" then
      (readType? ts).map fun (text, later) => if nextIs '[' later then text ++ "[]" else text
    else none

def isRealLiteral (literal : List Char) : Bool :=
  literal.contains '.' ||
    (literal.getLast?.any (fun c => ['f', 'F', 'd', 'D', 'm', 'M'].contains c) &&
      !"0x".toList.isPrefixOf literal)

/-- The type of an expression that starts like a literal. -/
def literalType? (scan : Scan) (first last : List Token) : Option String :=
  match first with
  | [] => none
  | t :: _ =>
    match t.lexeme with
    | .mark c =>
      if c = '"' ∨ c = '$' ∨ c = '@' then some "string"
      else if c = '\'' then some "char"
      else none
    | .number _ =>
      if isRealLiteral (scan.textBetween first last).toList then some "double" else some "int"
    | .word text => if text = "true" ∨ text = "false" then some "bool" else none

/-- The type in a cast at the start of an expression that goes on to `last`. -/
def castType? (first last : List Token) : Option String :=
  match first with
  | [] => none
  | t :: ts =>
    if t.isMark '(' then
      match readType? ts with
      | some (text, later) =>
        if nextIs ')' later && last.length + 1 < later.length then some text else none
      | none => none
    else none

/-- What follows the last `as` among the first tokens. -/
def afterLastAs? : Nat → List Token → Option (List Token)
  | 0, _ => none
  | _, [] => none
  | count + 1, t :: ts =>
    (afterLastAs? count ts).or (if t.word? == some "as" then some ts else none)

/-- The type after the last `as`, when the expression ends with it. -/
def asType? (first last : List Token) : Option String := do
  let target ← afterLastAs? (first.length - last.length) first
  let (text, later) ← readType? target
  if later.length = last.length then some text else none

/-- The type of a `var` variable whose initializer runs from `first` to `last`. An initializer of no
known form is kept as text. -/
def inferType (scan : Scan) (first last : List Token) : String × Option Initializer :=
  if first.isEmpty then ("var", none)
  else
    let known := (createdType? first).or <| (literalType? scan first last).or <|
      (castType? first last).or (asType? first last)
    match known with
    | some text => (text, none)
    | none => ("var", some (.expression (scan.textBetween first last)))

/-- The written type of a variable with an initializer: `var` is inferred, any other type stays. -/
def initializedType (scan : Scan) (written : String) (first last : List Token) :
    String × Option Initializer :=
  if written = "var" then inferType scan first last else (written, none)

/-- What all the locals of one declaration share. -/
structure LocalScope where
  stop : Nat
  isStatic : Bool

def LocalScope.variable (scope : LocalScope) (name : String) (start : Nat)
    (typed : String × Option Initializer) : Variable :=
  { name, typeName := typed.1, span := Span.of start scope.stop, isStatic := scope.isStatic
    kind := .localVariable, initializer := typed.2 }

/-- The declarators after the type of a declaration statement. -/
def declarators (scan : Scan) (scope : LocalScope) (written : String) : List Token → List Variable
  | name :: follow :: rest =>
    match nextName? [name] with
    | none => []
    | some text =>
      if follow.isMark '=' then
        if nextIs '>' rest then []
        else
          let last := expressionEnd rest
          let declared := scope.variable text name.start (initializedType scan written rest last)
          if nextIs ',' last then declared :: declarators scan scope written (last.drop 1)
          else [declared]
      else if follow.isMark ',' then
        scope.variable text name.start (written, none) :: declarators scan scope written rest
      else if follow.isMark ';' then [scope.variable text name.start (written, none)]
      else []
  | _ => []
termination_by ts => ts.length
decreasing_by
  · have := expressionEnd_length_le rest
    simp only [List.length_drop, List.length_cons]; omega
  · simp only [List.length_cons]; omega

/-- Words that may stand in front of the type of a declaration statement. -/
def statementWords : List String := ["const", "using", "await", "scoped", "ref", "readonly"]

/-- The list without the words of a set at its start. -/
def dropWords (set : List String) (ts : List Token) : List Token :=
  ts.dropWhile fun t => t.word?.any set.contains

def statementLocals (scan : Scan) (scope : LocalScope) (ts : List Token) : List Variable :=
  match declaredType? (dropWords statementWords ts) with
  | some (written, later) => declarators scan scope written later
  | none => []

/-- The locals declared in a header, for the tokens after its opening parenthesis. -/
def headerLocals (scan : Scan) (isStatic : Bool) (keyword : String) (ts : List Token) : List Variable :=
  match declaredType? ts with
  | none => []
  | some (written, later) =>
    match nextName? later with
    | none => []
    | some name =>
      let controlled := afterCloser .paren ts
      let stop :=
        if nextIs '{' controlled then scan.closeOffset .brace (controlled.drop 1)
        else scan.offsetOf (controlled.dropWhile (!·.isMark ';'))
      let scope : LocalScope := ⟨stop, isStatic⟩
      let start := scan.offsetOf later
      let follow := later.drop 1
      if keyword = "foreach" then
        if nextWord? follow == some "in" then
          let source := scan.textBetween (follow.drop 1) (fromCloser .paren ts)
          let initializer := if written = "var" then some (.elementOf source) else none
          [scope.variable name start (written, initializer)]
        else []
      else if keyword = "catch" then
        if nextIs ')' follow then [scope.variable name start (written, none)] else []
      else if keyword = "using" ∨ keyword = "for" ∨ keyword = "fixed" then
        if nextIs '=' follow then
          let first := follow.drop 1
          [scope.variable name start (initializedType scan written first (expressionEnd first))]
        else []
      else []

/-- `out int x` as an argument, for the tokens after `out`. -/
def outLocals (scan : Scan) (scope : LocalScope) (ts : List Token) : List Variable :=
  if nextWord? ts == some "var" then []
  else
    match readType? ts with
    | none => []
    | some (written, later) =>
      match nextName? later with
      | none => []
      | some name =>
        let follow := later.drop 1
        if nextIs ')' follow || nextIs ',' follow then
          [scope.variable name (scan.offsetOf later) (written, none)]
        else []

/-- The locals declared right at one position, told by the two tokens before it. -/
def localsAt (scan : Scan) (scope : LocalScope) (before : Option Token) (previous : Token)
    (ts : List Token) : List Variable :=
  if previous.isMark '{' || previous.isMark ';' || previous.isMark '}' then statementLocals scan scope ts
  else if previous.isMark '(' then
    match before.bind Token.word? with
    | some keyword => headerLocals scan scope.isStatic keyword ts
    | none => []
  else if previous.word? == some "out" then outLocals scan scope ts
  else []

/-- The locals declared in the next `count` tokens. `blocks` holds the ends of the open blocks, the
innermost first, inside a block that ends at `outer`. -/
def localsFrom (scan : Scan) (isStatic : Bool) (outer : Nat) :
    (count : Nat) → (blocks : List Nat) → Option Token → Token → List Token → List Variable
  | 0, _, _, _, _ => []
  | _, _, _, _, [] => []
  | count + 1, blocks, before, previous, t :: ts =>
    if t.isMark '{' then
      localsFrom scan isStatic outer count (scan.closeOffset .brace ts :: blocks) (some previous) t ts
    else if t.isMark '}' then
      localsFrom scan isStatic outer count blocks.tail (some previous) t ts
    else
      localsAt scan ⟨blocks.headD outer, isStatic⟩ before previous (t :: ts) ++
        localsFrom scan isStatic outer count blocks (some previous) t ts

/-- The locals of a block, for its opening brace and the tokens after it. -/
def blockLocals (scan : Scan) (isStatic : Bool) (brace : Token) (ts : List Token) : List Variable :=
  let count := ts.length - (fromCloser .brace ts).length
  localsFrom scan isStatic (scan.closeOffset .brace ts) count [] none brace ts

end Typeahead.Source
