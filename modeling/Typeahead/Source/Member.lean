import Typeahead.Source.Local
import Typeahead.Source.TypeRegion

namespace Typeahead.Source

def modifierWords : List String := [
  "public", "private", "protected", "internal", "static", "const", "readonly", "volatile",
  "virtual", "override", "abstract", "sealed", "new", "extern", "unsafe", "async", "partial",
  "event", "required", "fixed"]

/-- Words that start a nested type declaration. -/
def nestedTypeWords : List String := ["class", "struct", "interface", "enum", "record", "delegate"]

/-- The tokens after the next semicolon outside parentheses and square brackets, or after a braced
block when one comes first. -/
def skipMember : List Token → List Token
  | [] => []
  | t :: ts =>
    match t.opens? with
    | some .brace => afterCloser .brace ts
    | some kind => skipMember (afterCloser kind ts)
    | none => if t.isMark ';' then ts else skipMember ts
termination_by ts => ts.length
decreasing_by
  · have := afterCloser_length_le kind ts; simp only [List.length_cons]; omega
  · simp

theorem skipMember_length_le (ts : List Token) : (skipMember ts).length ≤ ts.length - 1 := by
  fun_induction skipMember ts with
  | case1 => exact Nat.le_refl _
  | case2 t ts => have := afterCloser_length_le .brace ts; simp only [List.length_cons]; omega
  | case3 t ts kind _ _ ih =>
    have := afterCloser_length_le kind ts; simp only [List.length_cons]; omega
  | case4 => simp
  | case5 t ts _ _ ih => simp only [List.length_cons]; omega

/-- Offset of the last token of `ts` that is not in `rest`. -/
def lastOffsetBefore (scan : Scan) (ts rest : List Token) : Nat :=
  scan.offsetOf ((ts.drop (ts.length - rest.length - 1)))

/-- A parameter and the offset of its name. -/
structure PlacedParameter where
  parameter : Parameter
  start : Nat
  deriving DecidableEq, Repr

def parameterWords : List String := ["this", "ref", "out", "in", "params", "scoped", "readonly"]

/-- The tokens after the next comma outside every group. -/
def afterComma : List Token → List Token
  | [] => []
  | t :: ts =>
    match t.opens? with
    | some kind => afterComma (afterCloser kind ts)
    | none => if t.isMark ',' then ts else afterComma ts
termination_by ts => ts.length
decreasing_by
  · have := afterCloser_length_le kind ts; simp only [List.length_cons]; omega
  · simp

theorem afterComma_length_le (ts : List Token) : (afterComma ts).length ≤ ts.length - 1 := by
  fun_induction afterComma ts with
  | case1 => exact Nat.le_refl _
  | case2 t ts kind _ ih =>
    have := afterCloser_length_le kind ts; simp only [List.length_cons]; omega
  | case3 => simp
  | case4 t ts _ _ ih => simp only [List.length_cons]; omega

theorem dropWords_length_le (set : List String) (ts : List Token) :
    (dropWords set ts).length ≤ ts.length := (List.dropWhile_sublist _).length_le

/-- One parameter, when there is one, and what follows its comma. -/
def parameterAt (ts : List Token) : Option PlacedParameter × List Token :=
  let ts := dropWords parameterWords ts
  match readType? ts with
  | none => (none, afterComma ts)
  | some (written, later) =>
    match later with
    | [] => (none, afterComma ts)
    | name :: rest =>
      match nextName? [name] with
      | none => (none, afterComma ts)
      | some text => (some ⟨⟨written, text⟩, name.start⟩, afterComma rest)

theorem parameterAt_length_le (ts : List Token) : (parameterAt ts).2.length ≤ ts.length - 1 := by
  have short := dropWords_length_le parameterWords ts
  have skip := afterComma_length_le (dropWords parameterWords ts)
  unfold parameterAt
  simp only
  split
  · simp only; omega
  · next written later found =>
    have read := readType?_length_lt found
    split
    · simp only; omega
    · next name rest =>
      split
      · simp only; omega
      · have := afterComma_length_le rest
        simp only [List.length_cons] at read
        simp only; omega

/-- The parameters between the parentheses; attributes in front of them are skipped. -/
def parametersFrom : List Token → List PlacedParameter
  | [] => []
  | t :: ts =>
    if t.isMark '[' then parametersFrom (afterCloser .square ts)
    else (parameterAt (t :: ts)).1.toList ++ parametersFrom (parameterAt (t :: ts)).2
termination_by ts => ts.length
decreasing_by
  · have := afterCloser_length_le .square ts; simp only [List.length_cons]; omega
  · have := parameterAt_length_le (t :: ts); simp only [List.length_cons] at *; omega

/-- What is known of a method before its parameters are read. -/
structure MethodHead where
  name : String
  returnType : String
  start : Nat

/-- The tokens from the body of a method on, or from the semicolon that stands for one. -/
def fromBody : List Token → List Token
  | [] => []
  | t :: ts =>
    if t.isMark '{' || t.isMark ';' || (t.isMark '=' && nextIs '>' ts) then t :: ts
    else if t.isMark '(' then fromBody (afterCloser .paren ts)
    else fromBody ts
termination_by ts => ts.length
decreasing_by
  · have := afterCloser_length_le .paren ts; simp only [List.length_cons]; omega
  · simp

theorem fromBody_length_le (ts : List Token) : (fromBody ts).length ≤ ts.length := by
  fun_induction fromBody ts with
  | case1 => exact Nat.le_refl _
  | case2 => exact Nat.le_refl _
  | case3 t ts _ _ ih =>
    have := afterCloser_length_le .paren ts; simp only [List.length_cons]; omega
  | case4 t ts _ _ ih => simp only [List.length_cons]; omega

/-- The body of a method with its locals, and what follows. -/
structure MethodBody where
  span : Option Span
  locals : List Variable
  rest : List Token

def methodBody (scan : Scan) (isStatic : Bool) : List Token → MethodBody
  | [] => ⟨none, [], []⟩
  | t :: ts =>
    if t.isMark '{' then
      ⟨some (Span.of t.start (scan.closeOffset .brace ts)), blockLocals scan isStatic t ts,
        afterCloser .brace ts⟩
    else if t.isMark '=' then
      let rest := skipMember (t :: ts)
      ⟨some (Span.of t.start (lastOffsetBefore scan (t :: ts) rest)), [], rest⟩
    else ⟨none, [], ts⟩

theorem methodBody_length_le (scan : Scan) (isStatic : Bool) (ts : List Token) :
    (methodBody scan isStatic ts).rest.length ≤ ts.length := by
  unfold methodBody
  split
  · exact Nat.le_refl _
  · next t ts =>
    split
    · have := afterCloser_length_le .brace ts; simp only [List.length_cons]; omega
    · split
      · have := skipMember_length_le (t :: ts); simp only [List.length_cons] at *; omega
      · simp

/-- A method or constructor, for the tokens after the parenthesis that opens its parameters. A
constructor has no head and leaves no method. -/
def methodFrom (scan : Scan) (isStatic : Bool) (head : Option MethodHead) (ts : List Token) :
    Declarations × List Token :=
  let parameters := parametersFrom (insideGroup .paren ts)
  let later := fromBody (afterCloser .paren ts)
  let body := methodBody scan isStatic later
  let inBody : Declarations :=
    match body.span with
    | none => {}
    | some span =>
      { vars := (parameters.map fun p =>
          { name := p.parameter.name, typeName := p.parameter.typeName
            span := Span.of (min p.start span.start) span.stop, isStatic
            kind := .parameter, initializer := none }) ++ body.locals
        bodies := [⟨span, isStatic⟩] }
  let stop := (body.span.map (·.stop)).getD (scan.offsetOf later)
  let method : Declarations :=
    match head with
    | none => {}
    | some head =>
      { methods := [{ name := head.name, returnType := head.returnType, isStatic
                      span := Span.of head.start stop
                      parameters := parameters.map (·.parameter) }] }
  (inBody ++ method, body.rest)

theorem methodFrom_length_le (scan : Scan) (isStatic : Bool) (head : Option MethodHead)
    (ts : List Token) : (methodFrom scan isStatic head ts).2.length ≤ ts.length := by
  have close := afterCloser_length_le .paren ts
  have start := fromBody_length_le (afterCloser .paren ts)
  have body := methodBody_length_le scan isStatic (fromBody (afterCloser .paren ts))
  simp only [methodFrom]; omega

/-- What the fields of one declaration share. -/
structure FieldScope where
  typeName : String
  isStatic : Bool
  span : Span

def FieldScope.variable (scope : FieldScope) (name : String) : Variable :=
  { name, typeName := scope.typeName, span := scope.span, isStatic := scope.isStatic, kind := .field
    initializer := none }

/-- The declarators of a field declaration, and what follows the last of them. -/
def fieldsFrom (scope : FieldScope) : List Token → List Variable × List Token
  | [] => ([], [])
  | t :: ts =>
    match nextName? [t] with
    | none => ([], t :: ts)
    | some name =>
      let later := if nextIs '=' ts then expressionEnd (ts.drop 1) else ts
      if nextIs ',' later then
        let (fields, rest) := fieldsFrom scope (later.drop 1)
        (scope.variable name :: fields, rest)
      else ([scope.variable name], later)
termination_by ts => ts.length
decreasing_by
  have := expressionEnd_length_le (ts.drop 1)
  split <;> simp only [List.length_drop, List.length_cons] at * <;> omega

theorem fieldsFrom_length_le (scope : FieldScope) (ts : List Token) :
    (fieldsFrom scope ts).2.length ≤ ts.length := by
  fun_induction fieldsFrom scope ts with
  | case1 => exact Nat.le_refl _
  | case2 => exact Nat.le_refl _
  | case3 t ts name _ later _ fields rest eq ih =>
    have bound : later.length ≤ ts.length := by
      have := expressionEnd_length_le (ts.drop 1)
      simp only [later]; split <;> simp only [List.length_drop] at * <;> omega
    simp only [eq, List.length_drop] at ih
    simp only [List.length_cons]; omega
  | case4 t ts name _ later _ =>
    have bound : later.length ≤ ts.length := by
      have := expressionEnd_length_le (ts.drop 1)
      simp only [later]; split <;> simp only [List.length_drop] at * <;> omega
    simp only [List.length_cons]; omega

/-- The list after a list of type parameters; without one, the list itself. -/
def dropTypeParameters (ts : List Token) : List Token :=
  if nextIs '<' ts then (ts.dropWhile (!·.isMark '>')).drop 1 else ts

theorem dropTypeParameters_length_le (ts : List Token) :
    (dropTypeParameters ts).length ≤ ts.length := by
  unfold dropTypeParameters; split
  · have := (List.dropWhile_sublist (fun t => !Token.isMark '>' t) (l := ts)).length_le
    simp only [List.length_drop]; omega
  · exact Nat.le_refl _

/-- The type body around a member. -/
structure BodyScope where
  scan : Scan
  span : Span
  isStatic : Bool

/-- What the modifiers and the type of a member say. -/
structure MemberHead where
  typeName : String
  /-- Offset of the type. -/
  start : Nat
  isStatic : Bool
  isPrivate : Bool

/-- A member whose type has been read, for its name, its place and the tokens from the name on. `skip`
is what remains when the member has no known shape. -/
def namedMember (scope : BodyScope) (head : MemberHead) (name : String) (named skip : List Token) :
    Declarations × List Token :=
  let scan := scope.scan
  let start := scan.offsetOf named
  let later := dropTypeParameters (named.drop 1)
  match later with
  | [] => ({}, skip)
  | t :: ts =>
    if t.isMark '(' then methodFrom scan head.isStatic (some ⟨name, head.typeName, head.start⟩) ts
    else if t.isMark '{' then
      let stop := scan.closeOffset .brace ts
      ({ properties := [⟨name, head.typeName, head.isStatic, Span.of start stop⟩]
         bodies := [⟨Span.of t.start stop, head.isStatic⟩]
         vars := blockLocals scan head.isStatic t ts }, afterCloser .brace ts)
    else if t.isMark '=' && nextIs '>' ts then
      let rest := skipMember later
      let stop := lastOffsetBefore scan later rest
      ({ properties := [⟨name, head.typeName, head.isStatic, Span.of start stop⟩]
         bodies := [⟨Span.of t.start stop, head.isStatic⟩] }, rest)
    else if t.isMark '=' || t.isMark ';' || t.isMark ',' then
      let (fields, rest) := fieldsFrom ⟨head.typeName, head.isStatic, scope.span⟩ named
      ({ vars := fields
         privateNames := if head.isPrivate then fields.map (·.name) else [] }, skipMember rest)
    else ({}, skip)

theorem namedMember_length_le (scope : BodyScope) (head : MemberHead) (name : String)
    (named skip : List Token) :
    (namedMember scope head name named skip).2.length ≤ max named.length skip.length := by
  have generics := dropTypeParameters_length_le (named.drop 1)
  simp only [List.length_drop] at generics
  unfold namedMember
  simp only
  split
  · simp only; omega
  · next t ts eq =>
    rw [eq, List.length_cons] at generics
    split
    · have := methodFrom_length_le scope.scan head.isStatic (some ⟨name, head.typeName, head.start⟩) ts
      omega
    · split
      · have := afterCloser_length_le .brace ts; simp only; omega
      · split
        · have := skipMember_length_le (dropTypeParameters (named.drop 1))
          rw [eq, List.length_cons] at this; simp only [eq]; omega
        · split
          · have fields := fieldsFrom_length_le ⟨head.typeName, head.isStatic, scope.span⟩ named
            have := skipMember_length_le
              (fieldsFrom ⟨head.typeName, head.isStatic, scope.span⟩ named).2
            simp only; omega
          · simp only; omega

/-- The member that starts with `t`, and what follows it. A member is static in a static type or by a
modifier, and private unless a modifier makes it visible elsewhere. -/
def memberFrom (scope : BodyScope) (t : Token) (ts : List Token) : Declarations × List Token :=
  if t.isMark '[' then ({}, afterCloser .square ts)
  else
    match t.lexeme with
    | .mark _ => ({}, ts)
    | .word _ | .number _ =>
      let modifiers := ((t :: ts).takeWhile fun u => u.word?.any modifierWords.contains).filterMap Token.word?
      let body := dropWords modifierWords (t :: ts)
      let skip := skipMember body
      let isStatic := scope.isStatic || modifiers.any ["static", "const"].contains
      let isPrivate := !modifiers.any ["public", "protected", "internal"].contains
      if (nextWord? body).any nestedTypeWords.contains then ({}, skip)
      else
        match readType? body with
        | none => ({}, skip)
        | some (written, named) =>
          if nextIs '(' named then methodFrom scope.scan isStatic none (named.drop 1)
          else
            match nextName? named with
            | none => ({}, skip)
            | some name =>
              let head : MemberHead := ⟨written, scope.scan.offsetOf body, isStatic, isPrivate⟩
              let (declared, rest) := namedMember scope head name named skip
              ({ privateNames := if isPrivate then [name] else [] } ++ declared, rest)

theorem memberFrom_length_lt (scope : BodyScope) (t : Token) (ts : List Token) :
    (memberFrom scope t ts).2.length < (t :: ts).length := by
  have body := dropWords_length_le modifierWords (t :: ts)
  have skip := skipMember_length_le (dropWords modifierWords (t :: ts))
  unfold memberFrom
  simp only [List.length_cons] at *
  split
  · have := afterCloser_length_le .square ts; simp only; omega
  · split
    · simp
    all_goals
      split
      · simp only; omega
      · split
        · simp only; omega
        · next written named found =>
          have read := readType?_length_lt found
          split
          · have := methodFrom_length_le scope.scan
              (scope.isStatic || List.any
                (((t :: ts).takeWhile fun u => u.word?.any modifierWords.contains).filterMap Token.word?)
                ["static", "const"].contains) none (named.drop 1)
            simp only [List.length_drop] at this; omega
          · split
            · simp only; omega
            · next name _ =>
              simp only
              refine Nat.lt_of_le_of_lt (namedMember_length_le scope _ name named _) ?_
              omega

/-- The members of a body, in order. -/
def membersFrom (scope : BodyScope) : List Token → Declarations
  | [] => {}
  | t :: ts => (memberFrom scope t ts).1 ++ membersFrom scope (memberFrom scope t ts).2
termination_by ts => ts.length
decreasing_by exact memberFrom_length_lt scope t ts

/-- Everything declared in the body of a type of the blanked text. -/
def Declarations.ofType (text : List Char) (region : TypeRegion) : Declarations :=
  let stop := min region.stop (Text.utf8Length text)
  membersFrom ⟨⟨text, stop⟩, Span.of region.bodyStart region.stop, region.isStatic⟩
    (tokensFrom region.bodyStart (Text.between region.bodyStart stop text))

end Typeahead.Source
