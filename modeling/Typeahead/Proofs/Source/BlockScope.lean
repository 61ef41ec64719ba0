import Typeahead.Proofs.Source.Statement
import Typeahead.Proofs.Source.TokenOrder

namespace Typeahead.Source

open Text

/-- The code after the opening brace of a body. -/
inductive BodyCode where
  /-- The body is closed, and any code follows it. -/
  | closed (statements : List Statement) (closing : Nat) (later : List Token)
  /-- The code ends in the body, inside blocks that are opened one in the other, each with the offset of its
  brace and the statements in it. -/
  | cutOff (statements : List Statement) (opened : List (Nat × List Statement))

namespace BodyCode

open Statement

def openedTokens (opened : List (Nat × List Statement)) : List Token :=
  opened.flatMap fun (start, statements) => markAt '{' start :: listTokens statements

def tokens : BodyCode → List Token
  | closed statements closing later => listTokens statements ++ markAt '}' closing :: later
  | cutOff statements opened => listTokens statements ++ openedTokens opened

/-- The locals declared in the body. -/
def locals (scan : Scan) (isStatic : Bool) : BodyCode → List Variable
  | closed statements closing _ => listLocals scan isStatic closing statements
  | cutOff statements opened =>
    listLocals scan isStatic scan.stop statements ++
      opened.flatMap fun (_, inner) => listLocals scan isStatic scan.stop inner

end BodyCode

variable {scan : Scan} {isStatic : Bool}

theorem closeOffset_block (scan : Scan) (statements : List Statement) (closing : Nat) (rest : List Token) :
    scan.closeOffset .brace (Statement.listTokens statements ++ markAt '}' closing :: rest) = closing := by
  rw [Scan.closeOffset, fromCloser_group .brace (Statement.nested_listTokens statements) rfl]
  rfl

namespace Statement

mutual

/-- From the start of a statement the search finds its locals and goes on after it, in the same blocks. -/
theorem localsFrom_tokens : ∀ (s : Statement) (scan : Scan) (isStatic : Bool) (outer n : Nat) (blocks : List Nat)
    (before : Option Token) (previous : Token) (rest : List Token), EndsStatement previous →
    InOrder (blocks.headD outer) s.tokens →
    ∃ before' last, EndsStatement last ∧
      localsFrom scan isStatic outer (s.tokens.length + n) blocks before previous (s.tokens ++ rest) =
        s.locals scan isStatic (blocks.headD outer) ++ localsFrom scan isStatic outer n blocks before' last rest
  | declaration type name stop, scan, isStatic, outer, n, blocks, before, previous, rest, starts, order => by
    refine ⟨some name.token, markAt ';' stop, endsStatement_markAt (by decide) stop, ?_⟩
    have named : name.start ≤ blocks.headD outer := order.start_le (show name.token ∈ _ by simp [tokens])
    have count : (declaration type name stop).tokens.length + n = type.tokens.length + (n + 2) := by
      simp only [tokens, List.length_append, List.length_cons, List.length_nil]
      omega
    have shape : (declaration type name stop).tokens ++ rest =
        type.tokens ++ name.token :: markAt ';' stop :: rest := by simp [tokens]
    rw [count, shape, localsFrom_declared type name rfl (by decide) starts, statementLocals_declaration type name rfl,
      variable_eq_localOf _ named]
    rfl
  | initialized type name equals value stop, scan, isStatic, outer, n, blocks, before, previous, rest, starts,
    order => by
    obtain ⟨before', run⟩ := localsFrom_value (some name.token) (markAt '=' equals) value stop rfl
    refine ⟨before', markAt ';' stop, endsStatement_markAt (by decide) stop, ?_⟩
    have named : name.start ≤ blocks.headD outer := order.start_le (show name.token ∈ _ by simp [tokens])
    have count : (initialized type name equals value stop).tokens.length + n =
        type.tokens.length + (value.tokens.length + (n + 1) + 2) := by
      simp only [tokens, List.length_append, List.length_cons, List.length_nil]
      omega
    have shape : (initialized type name equals value stop).tokens ++ rest =
        type.tokens ++ name.token :: markAt '=' equals :: (value.tokens ++ markAt ';' stop :: rest) := by
      simp [tokens]
    rw [count, shape, localsFrom_declared type name rfl (by decide) starts, statementLocals_initialized,
      variable_eq_localOf _ named, run]
    rfl
  | expression value stop, scan, isStatic, outer, n, blocks, before, previous, rest, starts, order => by
    obtain ⟨c, _, isMark⟩ := starts
    obtain ⟨before', run⟩ := localsFrom_value before previous value stop isMark
    refine ⟨before', markAt ';' stop, endsStatement_markAt (by decide) stop, ?_⟩
    have count : (expression value stop).tokens.length + n = value.tokens.length + (n + 1) := by
      simp only [tokens, List.length_append, List.length_cons, List.length_nil]
      omega
    have shape : (expression value stop).tokens ++ rest = value.tokens ++ markAt ';' stop :: rest := by simp [tokens]
    rw [count, shape, run]
    rfl
  | block opening body closing, scan, isStatic, outer, n, blocks, before, previous, rest, starts, order => by
    -- the search for the closing brace from here finds the block's own one, as the body is nested code
    have inside : InOrder closing (listTokens body) := by
      rw [tokens, ← List.singleton_append] at order
      exact order.right.before
    obtain ⟨before', last, _, run⟩ := localsFrom_listTokens body scan isStatic outer (n + 1) (closing :: blocks)
      (some previous) (markAt '{' opening) (markAt '}' closing :: rest)
      (endsStatement_markAt (by decide) opening) inside
    refine ⟨some last, markAt '}' closing, endsStatement_markAt (by decide) closing, ?_⟩
    have count : (block opening body closing).tokens.length + n = (listTokens body).length + (n + 1) + 1 := by
      simp only [tokens, List.length_append, List.length_cons, List.length_nil]
      omega
    have shape : (block opening body closing).tokens ++ rest =
        markAt '{' opening :: (listTokens body ++ markAt '}' closing :: rest) := by simp [tokens]
    have opens : (markAt '{' opening).isMark '{' = true := isMark_of_eq rfl
    have notOpening : (markAt '}' closing).isMark '{' = false := rfl
    have closes : (markAt '}' closing).isMark '}' = true := isMark_of_eq rfl
    rw [count, shape, localsFrom, opens, closeOffset_block]
    simp only [if_true]
    rw [run, localsFrom, notOpening, closes]
    rfl

/-- The same for the statements of a block. -/
theorem localsFrom_listTokens : ∀ (statements : List Statement) (scan : Scan) (isStatic : Bool) (outer n : Nat)
    (blocks : List Nat) (before : Option Token) (previous : Token) (rest : List Token), EndsStatement previous →
    InOrder (blocks.headD outer) (listTokens statements) →
    ∃ before' last, EndsStatement last ∧
      localsFrom scan isStatic outer ((listTokens statements).length + n) blocks before previous
          (listTokens statements ++ rest) =
        listLocals scan isStatic (blocks.headD outer) statements ++
          localsFrom scan isStatic outer n blocks before' last rest
  | [], scan, isStatic, outer, n, blocks, before, previous, rest, starts, _ => by
    refine ⟨before, previous, starts, ?_⟩
    rw [listTokens, listLocals, List.length_nil, Nat.zero_add, List.nil_append, List.nil_append]
  | s :: later, scan, isStatic, outer, n, blocks, before, previous, rest, starts, order => by
    rw [listTokens] at order
    obtain ⟨before₁, last₁, ends₁, first⟩ := localsFrom_tokens s scan isStatic outer
      ((listTokens later).length + n) blocks before previous (listTokens later ++ rest) starts order.left
    obtain ⟨before₂, last₂, ends₂, others⟩ := localsFrom_listTokens later scan isStatic outer n blocks
      before₁ last₁ rest ends₁ order.right
    refine ⟨before₂, last₂, ends₂, ?_⟩
    rw [listTokens, listLocals, List.length_append, Nat.add_assoc, List.append_assoc, first, others,
      List.append_assoc]

end

end Statement

namespace BodyCode

open Statement

theorem openedTokens_cons (start : Nat) (statements : List Statement) (opened : List (Nat × List Statement)) :
    openedTokens ((start, statements) :: opened) =
      markAt '{' start :: (listTokens statements ++ openedTokens opened) := by
  rw [openedTokens, List.flatMap_cons, List.cons_append]
  rfl

/-- Blocks that are cut off are never closed. -/
theorem closerFrom_openedTokens (opened : List (Nat × List Statement)) (depth : Nat) :
    closerFrom .brace depth (openedTokens opened) = none := by
  induction opened generalizing depth with
  | nil => rfl
  | cons block opened ih =>
    obtain ⟨start, statements⟩ := block
    have opens : (markAt '{' start).lexeme = .mark Bracket.brace.opening := rfl
    rw [openedTokens_cons, closerFrom_opening opens, closerFrom_append (nested_listTokens statements) rfl, ih]

theorem fromCloser_openedTokens (statements : List Statement) (opened : List (Nat × List Statement)) :
    fromCloser .brace (listTokens statements ++ openedTokens opened) = [] := by
  rw [fromCloser, closerFrom_append (nested_listTokens statements) rfl, closerFrom_openedTokens]
  rfl

theorem closeOffset_openedTokens (scan : Scan) (statements : List Statement) (opened : List (Nat × List Statement)) :
    scan.closeOffset .brace (listTokens statements ++ openedTokens opened) = scan.stop := by
  rw [Scan.closeOffset, fromCloser_openedTokens]
  rfl

/-- In blocks that are cut off every local holds to the end of the scan. -/
theorem localsFrom_openedTokens (opened : List (Nat × List Statement)) (scan : Scan) (isStatic : Bool) (outer : Nat)
    (blocks : List Nat) (before : Option Token) (previous : Token) (atEnd : blocks.headD outer = scan.stop)
    (order : InOrder scan.stop (openedTokens opened)) :
    localsFrom scan isStatic outer (openedTokens opened).length blocks before previous (openedTokens opened) =
      opened.flatMap fun (_, inner) => listLocals scan isStatic scan.stop inner := by
  -- the offset on top of the stack is the end of the scan from the first block on
  induction opened generalizing blocks before previous with
  | nil =>
    rw [openedTokens, List.flatMap_nil, List.flatMap_nil, List.length_nil, localsFrom]
  | cons block opened ih =>
    obtain ⟨start, statements⟩ := block
    rw [openedTokens_cons] at order ⊢
    have inside : InOrder scan.stop (listTokens statements ++ openedTokens opened) := by
      rw [← List.singleton_append] at order
      exact order.right
    obtain ⟨before', last, _, run⟩ := localsFrom_listTokens statements scan isStatic outer
      (openedTokens opened).length (scan.stop :: blocks) (some previous) (markAt '{' start) (openedTokens opened)
      (endsStatement_markAt (by decide) start) inside.left
    have opens : (markAt '{' start).isMark '{' = true := isMark_of_eq rfl
    rw [List.length_cons, List.length_append, localsFrom, opens, closeOffset_openedTokens]
    simp only [if_true]
    rw [run, ih (scan.stop :: blocks) before' last rfl inside.right]
    rfl

/-- The scan of a body records the locals that its statements declare, and no others. -/
theorem blockLocals_tokens (body : BodyCode) (scan : Scan) (isStatic : Bool) (opening : Nat)
    (order : InOrder scan.stop body.tokens) :
    blockLocals scan isStatic (markAt '{' opening) body.tokens = body.locals scan isStatic := by
  cases body with
  | closed statements closing later =>
    have ends : fromCloser .brace (listTokens statements ++ markAt '}' closing :: later) =
        markAt '}' closing :: later :=
      fromCloser_group .brace (nested_listTokens statements) rfl later
    have count : (listTokens statements ++ markAt '}' closing :: later).length -
        (markAt '}' closing :: later).length = (listTokens statements).length + 0 := by
      rw [List.length_append, Nat.add_sub_cancel, Nat.add_zero]
    have stop := closeOffset_block scan statements closing later
    obtain ⟨before', last, _, run⟩ := localsFrom_listTokens statements scan isStatic closing 0 [] none
      (markAt '{' opening) (markAt '}' closing :: later) (endsStatement_markAt (by decide) opening) order.before
    rw [tokens, blockLocals, ends, count, stop, run, localsFrom, List.append_nil]
    rfl
  | cutOff statements opened =>
    obtain ⟨before', last, _, run⟩ := localsFrom_listTokens statements scan isStatic scan.stop
      (openedTokens opened).length [] none (markAt '{' opening) (openedTokens opened)
      (endsStatement_markAt (by decide) opening) order.left
    have rest := localsFrom_openedTokens opened scan isStatic scan.stop [] before' last rfl order.right
    rw [tokens, blockLocals, fromCloser_openedTokens, List.length_nil, Nat.sub_zero, List.length_append,
      closeOffset_openedTokens, run, rest]
    rfl

end BodyCode

theorem kind_of_mem_locals {body : BodyCode} {v : Variable} (order : InOrder scan.stop body.tokens)
    (declared : v ∈ body.locals scan isStatic) : v.kind = .localVariable := by
  rw [← body.blockLocals_tokens scan isStatic 0 order] at declared
  exact kind_of_mem_localsFrom declared

/-- What is visible at a caret, with the locals of one body told apart. -/
theorem visibleVariables_append {front locals back : List Variable} (ds : Declarations) (context : DeclContext)
    (caret : Nat) (areLocal : ∀ v ∈ locals, v.kind = .localVariable) (shape : ds.vars = front ++ locals ++ back) :
    ds.visibleVariables context caret =
      front.filter (fun v => v.kind != .field && v.span.contains caret) ++
        locals.filter (fun v => v.span.start ≤ caret ∧ caret ≤ v.span.stop) ++
        back.filter (fun v => v.kind != .field && v.span.contains caret) ++
        ds.vars.filter fun v => v.kind == .field && context.allows v.isStatic && v.span.contains caret := by
  have own : locals.filter (fun v => v.kind != .field && v.span.contains caret) =
      locals.filter fun v => v.span.start ≤ caret ∧ caret ≤ v.span.stop := by
    refine List.filter_congr fun v inside => ?_
    simp [areLocal v inside, Span.contains]
  have unfielded : (ds.vars.filter (·.kind != .field)).filter (·.span.contains caret) =
      ds.vars.filter fun v => v.kind != .field && v.span.contains caret := by
    rw [List.filter_filter]
    exact List.filter_congr fun v _ => Bool.and_comm _ _
  have fields :
      (ds.vars.filter fun v => v.kind == .field && context.allows v.isStatic).filter (·.span.contains caret) =
      ds.vars.filter fun v => v.kind == .field && context.allows v.isStatic && v.span.contains caret := by
    rw [List.filter_filter]
    exact List.filter_congr fun v _ => Bool.and_comm _ _
  have parts : ds.vars.filter (fun v => v.kind != .field && v.span.contains caret) =
      front.filter (fun v => v.kind != .field && v.span.contains caret) ++
        locals.filter (fun v => v.span.start ≤ caret ∧ caret ≤ v.span.stop) ++
        back.filter (fun v => v.kind != .field && v.span.contains caret) := by
    rw [shape, List.filter_append, List.filter_append, own]
  rw [Declarations.visibleVariables, Declarations.variablesIn, List.filter_append, unfielded, fields, parts]

/-- Locals follow block scope. The scan of a body records exactly the locals that its statements declare, in
order, each from its name to the end of the innermost block around it; and at a caret those of them are
visible that are declared up to the caret in a block that does not end before it, whatever else is declared
around the body. -/
theorem blockLocals_blockScope (body : BodyCode) (scan : Scan) (isStatic : Bool) {offset opening : Nat}
    {code : List Char} {earlier : List Token} (within : offset + utf8Length code ≤ scan.stop)
    (spelled : tokensFrom offset code = earlier ++ markAt '{' opening :: body.tokens) :
    blockLocals scan isStatic (markAt '{' opening) body.tokens = body.locals scan isStatic ∧
      ∀ (ds : Declarations) (front back : List Variable) (context : DeclContext) (caret : Nat),
        ds.vars = front ++ blockLocals scan isStatic (markAt '{' opening) body.tokens ++ back →
        ds.visibleVariables context caret =
          front.filter (fun v => v.kind != .field && v.span.contains caret) ++
            (body.locals scan isStatic).filter (fun v => v.span.start ≤ caret ∧ caret ≤ v.span.stop) ++
            back.filter (fun v => v.kind != .field && v.span.contains caret) ++
            ds.vars.filter fun v => v.kind == .field && context.allows v.isStatic && v.span.contains caret := by
  have whole := inOrder_tokensFrom within
  rw [spelled, ← List.singleton_append, ← List.append_assoc] at whole
  have order : InOrder scan.stop body.tokens := whole.right
  have recorded := body.blockLocals_tokens scan isStatic opening order
  refine ⟨recorded, fun ds front back context caret shape => ?_⟩
  rw [recorded] at shape
  exact visibleVariables_append ds context caret (fun _ => kind_of_mem_locals order) shape

/-- A name alone as the type of a declaration. -/
def plainType (name : PlacedName) (unmarked : name.name.text ∉ statementWords := by decide) : PlacedType where
  expr := .named name.name
  tokens := [name.token]
  spelled := rfl
  unmarked := unmarked
  alone := fun _ => rfl

/-- A body with a block in it, in front of other code. -/
def closedText : List Char := "M()\x7bX a;\x7bvar b=a.c(d,e)[f];g(b);\x7dY<Z>h;\x7dW i;".toList

def indexed : PlacedExpr where
  expr := .index (.call (.member (.name "a") "c") [.name "d", .name "e"]) (.name "f") []
  tokens := [⟨.word "a", 15⟩, ⟨.mark '.', 16⟩, ⟨.word "c", 17⟩, ⟨.mark '(', 18⟩, ⟨.word "d", 19⟩, ⟨.mark ',', 20⟩,
    ⟨.word "e", 21⟩, ⟨.mark ')', 22⟩, ⟨.mark '[', 23⟩, ⟨.word "f", 24⟩, ⟨.mark ']', 25⟩]

/-- `g(b)` at an offset. -/
def called (start : Nat) : PlacedExpr where
  expr := .call (.name "g") [.name "b"]
  tokens := [⟨.word "g", start⟩, ⟨.mark '(', start + 1⟩, ⟨.word "b", start + 2⟩, ⟨.mark ')', start + 3⟩]
  spelled := rfl

def closedBody : BodyCode :=
  .closed
    [.declaration (plainType ⟨{ text := "X" }, 4⟩) ⟨{ text := "a" }, 6⟩ 7,
      .block 8
        [.initialized (plainType ⟨{ text := "var" }, 9⟩) ⟨{ text := "b" }, 13⟩ 14 indexed 26,
          .expression (called 27) 31] 32,
      .declaration
        { expr := .mk { text := "Y" } [] [.named { text := "Z" }] false []
          tokens := [⟨.word "Y", 33⟩, ⟨.mark '<', 34⟩, ⟨.word "Z", 35⟩, ⟨.mark '>', 36⟩]
          alone := fun isVar => absurd isVar (by decide) }
        ⟨{ text := "h" }, 37⟩ 38]
    39 [⟨.word "W", 40⟩, ⟨.word "i", 42⟩, ⟨.mark ';', 43⟩]

/-- The same body up to a second block inside the first one, with the code ending there. -/
def cutOffText : List Char := "M()\x7bX a;\x7bvar b=a.c(d,e)[f];\x7bg(b);Z h;".toList

def cutOffBody : BodyCode :=
  .cutOff [.declaration (plainType ⟨{ text := "X" }, 4⟩) ⟨{ text := "a" }, 6⟩ 7]
    [(8, [.initialized (plainType ⟨{ text := "var" }, 9⟩) ⟨{ text := "b" }, 13⟩ 14 indexed 26]),
      (27, [.expression (called 28) 32, .declaration (plainType ⟨{ text := "Z" }, 33⟩) ⟨{ text := "h" }, 35⟩ 36])]

/-- Name, type and span of what a scan of `text` finds in a body. -/
def localSpans (text : List Char) (body : BodyCode) : List (String × String × Span) :=
  (blockLocals ⟨text, utf8Length text⟩ false (markAt '{' 3) body.tokens).map fun v => (v.name, v.typeName, v.span)

theorem blockLocals_blockScope_nested :
    localSpans closedText closedBody = [("a", "X", ⟨6, 39⟩), ("b", "var", ⟨13, 32⟩), ("h", "Y<Z>", ⟨37, 39⟩)] ∧
      (({ vars := blockLocals ⟨closedText, 44⟩ false (markAt '{' 3) closedBody.tokens } : Declarations).visibleVariables
        .instanceBody 28).map (·.name) = ["a", "b"] ∧
      localSpans cutOffText cutOffBody = [("a", "X", ⟨6, 37⟩), ("b", "var", ⟨13, 37⟩), ("h", "Z", ⟨35, 37⟩)] := by
  have spelled : tokensFrom 0 closedText =
      [⟨.word "M", 0⟩, ⟨.mark '(', 1⟩, ⟨.mark ')', 2⟩] ++ markAt '{' 3 :: closedBody.tokens := by decide +kernel
  have spelledCutOff : tokensFrom 0 cutOffText =
      [⟨.word "M", 0⟩, ⟨.mark '(', 1⟩, ⟨.mark ')', 2⟩] ++ markAt '{' 3 :: cutOffBody.tokens := by decide +kernel
  -- over a variable, so that the scan of the closed text is not evaluated to compare the two lists
  have alone (locals : List Variable) : ({ vars := locals } : Declarations).vars = [] ++ locals ++ [] :=
    (List.append_nil locals).symm
  obtain ⟨recorded, visible⟩ := blockLocals_blockScope closedBody ⟨closedText, 44⟩ false (by decide) spelled
  obtain ⟨recordedCutOff, -⟩ := blockLocals_blockScope cutOffBody ⟨cutOffText, 37⟩ false (by decide) spelledCutOff
  have closedLength : utf8Length closedText = 44 := by decide
  have cutOffLength : utf8Length cutOffText = 37 := by decide
  refine ⟨?_, ?_, ?_⟩
  · rw [localSpans, closedLength, recorded]
    decide +kernel
  · rw [visible _ [] [] .instanceBody 28 (alone _), recorded]
    decide +kernel
  · rw [localSpans, cutOffLength, recordedCutOff]
    decide +kernel

end Typeahead.Source
