import Typeahead.Proofs.Source.LocalDeclarators
import Typeahead.Proofs.Source.SpanBounds

namespace Typeahead.Source

open Text

/-- What stands behind the name in a header, where it stands. -/
inductive HeaderTail where
  /-- `in source` -/
  | source (start : Nat) (code : List Token)
  | nothing
  /-- `= value`, with whatever follows it: other declarators, a condition, steps. -/
  | value (equals : Nat) (code : List Token)

namespace HeaderTail

/-- The words of the headers that declare a local in this form. -/
def keywords : HeaderTail → List String
  | source _ _ => ["foreach"]
  | nothing => ["catch"]
  | value _ _ => ["using", "for", "fixed"]

def tokens : HeaderTail → List Token
  | source start code => ⟨.word "in", start⟩ :: code
  | nothing => []
  | value equals code => markAt '=' equals :: code

end HeaderTail

/-- `keyword (type name …)` where it stands. -/
structure LocalHeader where
  keyword : String
  start : Nat
  opening : Nat
  type : PlacedType
  name : PlacedName
  tail : HeaderTail
  closing : Nat
  fits : keyword ∈ tail.keywords
  nested : Nested (tail.tokens.map (·.lexeme))

namespace LocalHeader

/-- The tokens between the parentheses. -/
def inside (h : LocalHeader) : List Token := h.type.tokens ++ h.name.token :: h.tail.tokens

def tokens (h : LocalHeader) : List Token :=
  ⟨.word h.keyword, h.start⟩ :: markAt '(' h.opening :: (h.inside ++ [markAt ')' h.closing])

/-- The type recorded for the local and its initializer, in front of the code behind the header. -/
def typed (scan : Scan) (h : LocalHeader) (behind : List Token) : String × Option Initializer :=
  let written := h.type.expr.text
  let closed := markAt ')' h.closing :: behind
  match h.tail with
  | .source _ code =>
    (written, if written = "var" then some (.elementOf (scan.textBetween (code ++ closed) closed)) else none)
  | .nothing => (written, none)
  | .value _ code => initializedType scan written (code ++ closed) (expressionEnd (code ++ closed))

end LocalHeader

/-- A further header: a word and code in parentheses. -/
structure HeaderLink where
  word : String
  start : Nat
  opening : Nat
  inside : List Token
  closing : Nat

def HeaderLink.tokens (link : HeaderLink) : List Token :=
  ⟨.word link.word, link.start⟩ :: markAt '(' link.opening :: (link.inside ++ [markAt ')' link.closing])

/-- What a header controls: further headers and a block. -/
structure Controlled where
  links : List HeaderLink
  opening : Nat
  inside : List Token
  closing : Nat
  nested : Nested (inside.map (·.lexeme))

namespace Controlled

/-- The tokens in front of the closing brace. -/
def front (c : Controlled) : List Token := c.links.flatMap (·.tokens) ++ markAt '{' c.opening :: c.inside

def tokens (c : Controlled) : List Token := c.front ++ [markAt '}' c.closing]

/-- The block stands right behind the header, or no semicolon stands in front of its closing brace. -/
def Unbroken (c : Controlled) : Prop := c.links = [] ∨ ∀ t ∈ c.front, t.lexeme ≠ .mark ';'

/-- Where a local of the header ends, with the code behind the block. -/
def scopeStop (scan : Scan) (c : Controlled) (behind : List Token) : Nat :=
  if c.links.isEmpty then c.closing
  else scan.offsetOf ((c.tokens ++ behind).dropWhile (!·.isMark ';'))

end Controlled

/-- The local that a header declares. -/
def LocalHeader.declared (scan : Scan) (isStatic : Bool) (h : LocalHeader) (c : Controlled) (behind : List Token) :
    Variable :=
  Statement.localOf isStatic h.name (h.typed scan (c.tokens ++ behind)) (c.scopeStop scan behind)

variable {scan : Scan} {isStatic : Bool} {scope : LocalScope} {ts rest behind : List Token} {t : Token}

theorem declaredType?_header (type : PlacedType) (ends : EndsType rest) :
    declaredType? (type.tokens ++ rest) = some (type.expr.text, rest) := by
  have first := nextWord?_expr type.spelled rest
  have typed := declaredType?_placedType type ends
  rwa [dropWords_of_ends (by simp [first, type.unmarked])] at typed

theorem LocalHeader.nested_inside (h : LocalHeader) : Nested (h.inside.map (·.lexeme)) := by
  rw [inside, List.map_append]
  exact h.type.nested.append (.plain (isPlain_word _) h.nested)

/-- The end of the scope, as it is found from the header. -/
theorem Controlled.stop_eq (c : Controlled) :
    (if nextIs '{' (c.tokens ++ behind) then scan.closeOffset .brace ((c.tokens ++ behind).drop 1)
      else scan.offsetOf ((c.tokens ++ behind).dropWhile (!·.isMark ';'))) = c.scopeStop scan behind := by
  rw [scopeStop]
  cases links : c.links with
  | nil =>
    have shape : c.tokens ++ behind = markAt '{' c.opening :: (c.inside ++ markAt '}' c.closing :: behind) := by
      simp [tokens, front, links]
    have closes : scan.closeOffset .brace (c.inside ++ markAt '}' c.closing :: behind) = c.closing := by
      rw [Scan.closeOffset, fromCloser_group .brace c.nested rfl]
      rfl
    rw [shape, nextIs_mark rfl, List.drop_one, List.tail_cons, closes]
    rfl
  | cons link links' =>
    obtain ⟨first, more, shape, isWord⟩ : ∃ first more, c.tokens ++ behind = first :: more ∧
        first.lexeme = .word link.word := by
      simp [tokens, front, links, HeaderLink.tokens]
    rw [shape, nextIs_word isWord]
    rfl

/-- A header is read as the local that it declares. -/
theorem headerLocals_header (h : LocalHeader) (c : Controlled) (ordered : h.name.start ≤ c.scopeStop scan behind) :
    headerLocals scan isStatic h.keyword (h.inside ++ markAt ')' h.closing :: (c.tokens ++ behind)) =
      [h.declared scan isStatic c behind] := by
  have controlled : afterCloser .paren (h.inside ++ markAt ')' h.closing :: (c.tokens ++ behind)) =
      c.tokens ++ behind := afterCloser_group .paren h.nested_inside rfl _
  have closer : fromCloser .paren (h.inside ++ markAt ')' h.closing :: (c.tokens ++ behind)) =
      markAt ')' h.closing :: (c.tokens ++ behind) := fromCloser_group .paren h.nested_inside rfl _
  have shape : h.inside ++ markAt ')' h.closing :: (c.tokens ++ behind) =
      h.type.tokens ++ h.name.token :: (h.tail.tokens ++ markAt ')' h.closing :: (c.tokens ++ behind)) := by
    simp [LocalHeader.inside]
  have typed : declaredType? (h.type.tokens ++
      h.name.token :: (h.tail.tokens ++ markAt ')' h.closing :: (c.tokens ++ behind))) =
        some (h.type.expr.text, h.name.token :: (h.tail.tokens ++ markAt ')' h.closing :: (c.tokens ++ behind))) :=
    declaredType?_header h.type (endsType_word rfl)
  have named : nextName? (h.name.token :: (h.tail.tokens ++ markAt ')' h.closing :: (c.tokens ++ behind))) =
      some h.name.name.text := nextName?_name rfl
  have recorded (typed : String × Option Initializer) :
      [(⟨c.scopeStop scan behind, isStatic⟩ : LocalScope).variable h.name.name.text h.name.start typed] =
        [Statement.localOf isStatic h.name typed (c.scopeStop scan behind)] :=
    congrArg ([·]) (variable_eq_localOf typed ordered)
  have fits := h.fits
  rw [headerLocals, controlled, closer, shape, typed, LocalHeader.declared, LocalHeader.typed]
  simp only [named, c.stop_eq]
  cases tail : h.tail with
  | source start code =>
    have isForeach : h.keyword = "foreach" := by simpa [tail, HeaderTail.keywords] using fits
    rw [if_pos isForeach]
    exact (if_pos rfl).trans (recorded _)
  | nothing =>
    have isCatch : h.keyword = "catch" := by simpa [tail, HeaderTail.keywords] using fits
    rw [isCatch, if_neg (by decide), if_pos rfl]
    exact (if_pos rfl).trans (recorded _)
  | value equals code =>
    have others : h.keyword = "using" ∨ h.keyword = "for" ∨ h.keyword = "fixed" := by
      simpa [tail, HeaderTail.keywords] using fits
    have notForeach : h.keyword ≠ "foreach" := by rcases others with eq | eq | eq <;> simp [eq]
    have notCatch : h.keyword ≠ "catch" := by rcases others with eq | eq | eq <;> simp [eq]
    rw [if_neg notForeach, if_neg notCatch, if_pos others]
    exact (if_pos rfl).trans (recorded _)

/-- A type with a mark behind it that no type goes on with declares nothing: a pointer, or names in
parentheses. -/
theorem headerLocals_mark {keyword : String} {c : Char} (type : PlacedType) (isMark : t.lexeme = .mark c)
    (ends : c ∉ ['.', '<', '?', '[', ':']) :
    headerLocals scan isStatic keyword (type.tokens ++ t :: rest) = [] := by
  rw [headerLocals, declaredType?_header type (endsType_mark isMark ends)]
  simp only [nextName?_mark isMark]

/-- The first token that fails a test stands behind a token exactly if all in front of that pass it. -/
theorem start_le_offsetOf_dropWhile_iff {p : Token → Bool}
    (sorted : (ts ++ t :: rest).Pairwise fun a b => a.start < b.start) (bounded : t.start ≤ scan.stop) :
    t.start ≤ scan.offsetOf ((ts ++ t :: rest).dropWhile p) ↔ ∀ u ∈ ts, p u = true := by
  obtain ⟨-, later, apart⟩ := List.pairwise_append.mp sorted
  refine ⟨fun reaches => ?_, fun passed => ?_⟩
  · by_contra fails
    have stops : ts.dropWhile p ≠ [] := fails ∘ List.dropWhile_eq_nil_iff.mp
    rw [List.dropWhile_append, if_neg (by simpa using stops)] at reaches
    obtain ⟨u, more, eq⟩ := List.exists_cons_of_ne_nil stops
    have inside : u ∈ ts := (List.dropWhile_sublist p).subset (eq ▸ List.mem_cons_self)
    rw [eq] at reaches
    exact absurd reaches (Nat.not_le_of_lt (apart u inside t List.mem_cons_self))
  · have empty : (ts.dropWhile p).isEmpty = true := by simpa [List.dropWhile_eq_nil_iff] using passed
    rw [List.dropWhile_append, if_pos empty]
    have behind : Placed (t.start ≤ ·) scan (t :: rest) :=
      ⟨bounded, List.forall_mem_cons.mpr ⟨Nat.le_refl _, fun u inside =>
        Nat.le_of_lt ((List.pairwise_cons.mp later).1 u inside)⟩⟩
    exact (behind.of_suffix (List.dropWhile_suffix p)).offsetOf

/-- A local of the header reaches the end of the block exactly if nothing breaks off the search for it. -/
theorem Controlled.closing_le_scopeStop_iff (c : Controlled)
    (sorted : (c.tokens ++ behind).Pairwise fun a b => a.start < b.start) (bounded : c.closing ≤ scan.stop) :
    c.closing ≤ c.scopeStop scan behind ↔ c.Unbroken := by
  rw [Unbroken, scopeStop]
  cases links : c.links with
  | nil => simp
  | cons link links' =>
    have shape : c.tokens ++ behind = c.front ++ markAt '}' c.closing :: behind := by simp [tokens]
    rw [shape] at sorted ⊢
    have reaches := start_le_offsetOf_dropWhile_iff (p := fun t => !t.isMark ';') (t := markAt '}' c.closing)
      sorted bounded
    refine reaches.trans ⟨fun passed => .inr fun u inside => ?_, fun whole u inside => ?_⟩
    · simpa [Token.isMark] using passed u inside
    · simpa [Token.isMark] using (whole.resolve_left (List.cons_ne_nil _ _)) u inside

/-- A local of the header ends behind everything that is in front of what the header controls. -/
theorem Controlled.le_scopeStop (c : Controlled) {n : Nat} (placed : Placed (n ≤ ·) scan (c.tokens ++ behind)) :
    n ≤ c.scopeStop scan behind := by
  rw [scopeStop]
  split
  · exact placed.start (markAt '}' c.closing) (by simp [tokens])
  · exact (placed.of_suffix (List.dropWhile_suffix _)).offsetOf

/-- What is read at a place of a block is among the locals of the block. -/
theorem mem_blockLocals (scan : Scan) (isStatic : Bool) (brace : Token) {front later : List Token}
    (inside : insideGroup .brace ts = front ++ t :: later) (notOpening : t.lexeme ≠ .mark '{')
    (notClosing : t.lexeme ≠ .mark '}') :
    ∃ stop, ∀ v ∈ localsAt scan ⟨stop, isStatic⟩ (placeBehind none brace front).1 (placeBehind none brace front).2
      (t :: (later ++ fromCloser .brace ts)), v ∈ blockLocals scan isStatic brace ts := by
  have block := insideGroup_append .brace ts
  rw [inside, List.append_assoc, List.cons_append] at block
  have count : ts.length - (fromCloser .brace ts).length = front.length + (later.length + 1) := by
    have length := congrArg List.length block
    simp only [List.length_append, List.length_cons] at length ⊢
    omega
  obtain ⟨blocks, split⟩ := localsFrom_append scan isStatic (scan.closeOffset .brace ts) [] none brace front
    (t :: (later ++ fromCloser .brace ts))
  have run := split (later.length + 1)
  rw [block, localsFrom, isMark_eq_false notOpening, isMark_eq_false notClosing] at run
  simp only [Bool.false_eq_true, if_false] at run
  refine ⟨blocks.headD (scan.closeOffset .brace ts), fun v read => ?_⟩
  rw [blockLocals, count, run]
  exact List.mem_append_right _ (List.mem_append_left _ read)

theorem localsAt_header {before previous : Token} {keyword : String} (isWord : before.lexeme = .word keyword)
    (isOpening : previous.lexeme = .mark '(') :
    localsAt scan scope (some before) previous ts = headerLocals scan scope.isStatic keyword ts := by
  have named : (some before).bind Token.word? = some keyword := by simp [Token.word?, isWord]
  rw [localsAt, named]
  simp [Token.isMark, isOpening]

/-- The local of a header in a block is among the locals of the block. -/
theorem LocalHeader.declared_mem_blockLocals (h : LocalHeader) (c : Controlled) {brace : Token}
    {front later : List Token} (inside : insideGroup .brace ts = front ++ (h.tokens ++ c.tokens ++ later))
    (read : headerLocals scan isStatic h.keyword
      (h.inside ++ markAt ')' h.closing :: (c.tokens ++ (later ++ fromCloser .brace ts))) =
        [h.declared scan isStatic c (later ++ fromCloser .brace ts)]) :
    h.declared scan isStatic c (later ++ fromCloser .brace ts) ∈ blockLocals scan isStatic brace ts := by
  obtain ⟨lexemes, shape⟩ := h.type.expr.lexemes_eq
  obtain ⟨first, more, eq, isFirst, -⟩ := List.map_eq_cons_iff.mp (h.type.spelled.trans shape)
  let keyword : Token := ⟨.word h.keyword, h.start⟩
  let rest := more ++ h.name.token :: (h.tail.tokens ++ markAt ')' h.closing :: (c.tokens ++ later))
  have split : insideGroup .brace ts = (front ++ [keyword, markAt '(' h.opening]) ++ first :: rest := by
    simp [inside, keyword, rest, LocalHeader.tokens, LocalHeader.inside, eq]
  obtain ⟨stop, recorded⟩ := mem_blockLocals scan isStatic brace split (by simp [isFirst]) (by simp [isFirst])
  refine recorded _ ?_
  have whole : first :: (rest ++ fromCloser .brace ts) =
      h.inside ++ markAt ')' h.closing :: (c.tokens ++ (later ++ fromCloser .brace ts)) := by
    simp [rest, LocalHeader.inside, eq]
  have here : localsAt scan ⟨stop, isStatic⟩ (some keyword) (markAt '(' h.opening)
      (first :: (rest ++ fromCloser .brace ts)) = [h.declared scan isStatic c (later ++ fromCloser .brace ts)] := by
    rw [localsAt_header rfl rfl, whole, read]
  rw [placeBehind_append]
  exact here ▸ List.mem_singleton_self _

theorem Declarations.mem_visibleVariables_iff {ds : Declarations} {context : DeclContext} {caret : Nat}
    {v : Variable} (isLocal : v.kind = .localVariable) (declared : v ∈ ds.vars) :
    v ∈ ds.visibleVariables context caret ↔ v.span.start ≤ caret ∧ caret ≤ v.span.stop := by
  simp [visibleVariables, variablesIn, Span.contains, isLocal, declared]

/-- Where the parts of a header and of what it controls stand. -/
structure LocalHeader.Ordered (scan : Scan) (h : LocalHeader) (c : Controlled) (behind : List Token) : Prop where
  sorted : (c.tokens ++ behind).Pairwise fun a b => a.start < b.start
  name_lt_opening : h.name.start < c.opening
  opening_lt_closing : c.opening < c.closing
  name_le : Placed (h.name.start ≤ ·) scan (c.tokens ++ behind)
  closing_le_stop : c.closing ≤ scan.stop

theorem LocalHeader.ordered (h : LocalHeader) (c : Controlled) {offset : Nat} {code : List Char}
    {earlier : List Token} (within : offset + utf8Length code ≤ scan.stop)
    (spelled : tokensFrom offset code = earlier ++ (h.tokens ++ (c.tokens ++ behind))) :
    h.Ordered scan c behind := by
  have bounded : ∀ t ∈ h.tokens ++ (c.tokens ++ behind), t.start ≤ scan.stop := fun t inside => by
    have := (start_of_mem_tokensFrom t (spelled ▸ List.mem_append_right _ inside)).2
    omega
  have sorted := tokensFrom_sorted offset code
  rw [spelled] at sorted
  obtain ⟨-, sorted, apart⟩ := List.pairwise_append.mp (List.pairwise_append.mp sorted).2.1
  have named : h.name.token ∈ h.tokens := by simp [tokens, inside]
  have opens : markAt '{' c.opening ∈ c.tokens ++ behind := by simp [Controlled.tokens, Controlled.front]
  have closes : markAt '}' c.closing ∈ c.tokens ++ behind := by simp [Controlled.tokens]
  have braces := (List.pairwise_append.mp (List.pairwise_append.mp sorted).1).2.2 (markAt '{' c.opening)
    (by simp [Controlled.front]) (markAt '}' c.closing) (List.mem_singleton_self _)
  exact ⟨sorted, apart _ named _ opens, braces,
    ⟨bounded _ (List.mem_append_left _ named), fun t inside => Nat.le_of_lt (apart _ named t inside)⟩,
    bounded _ (List.mem_append_right _ closes)⟩

/-- Scope of the local of a header. Anywhere in a body, a header is read as the local that it declares first,
and that one is recorded. It reaches the closing brace of the block that the header controls, and is visible at
every caret in that block, exactly if the block stands right behind the header or no semicolon stands in front
of the brace. A header with a mark behind the type declares nothing. -/
theorem header_local_scope (h : LocalHeader) (c : Controlled) (scan : Scan) (isStatic : Bool) (brace : Token)
    {offset : Nat} {code : List Char} {earlier ts front later : List Token}
    (within : offset + utf8Length code ≤ scan.stop) (spelled : tokensFrom offset code = earlier ++ brace :: ts)
    (inside : insideGroup .brace ts = front ++ (h.tokens ++ c.tokens ++ later)) :
    let behind := later ++ fromCloser .brace ts
    let v := h.declared scan isStatic c behind
    (headerLocals scan isStatic h.keyword (h.inside ++ markAt ')' h.closing :: (c.tokens ++ behind)) = [v] ∧
        v ∈ blockLocals scan isStatic brace ts) ∧
      (c.closing ≤ v.span.stop ↔ c.Unbroken) ∧
      (∀ (ds : Declarations) (context : DeclContext), v ∈ ds.vars →
        ((∀ caret, c.opening < caret → caret ≤ c.closing → v ∈ ds.visibleVariables context caret) ↔ c.Unbroken)) ∧
      ∀ (mark : Token) (sign : Char) (rest : List Token), mark.lexeme = .mark sign →
        sign ∉ ['.', '<', '?', '[', ':'] →
          headerLocals scan isStatic h.keyword (h.type.tokens ++ mark :: rest) = [] := by
  intro behind v
  have shape : tokensFrom offset code = earlier ++ [brace] ++ front ++ (h.tokens ++ (c.tokens ++ behind)) := by
    rw [spelled, ← insideGroup_append .brace ts, inside]
    simp [behind]
  have order := h.ordered c within shape
  have read : headerLocals scan isStatic h.keyword _ = [v] := headerLocals_header h c (c.le_scopeStop order.name_le)
  have reaches : c.closing ≤ v.span.stop ↔ c.Unbroken :=
    c.closing_le_scopeStop_iff order.sorted order.closing_le_stop
  refine ⟨⟨read, h.declared_mem_blockLocals c inside read⟩, reaches, fun ds context declared => ?_,
    fun _ _ _ isMark ends => headerLocals_mark h.type isMark ends⟩
  have visible (caret : Nat) : v ∈ ds.visibleVariables context caret ↔ h.name.start ≤ caret ∧ caret ≤ v.span.stop :=
    ds.mem_visibleVariables_iff rfl declared
  refine ⟨fun everywhere => ?_, fun whole caret opened closed => ?_⟩
  · have atBrace := everywhere c.closing order.opening_lt_closing (Nat.le_refl _)
    exact reaches.mp ((visible c.closing).mp atBrace).2
  · have named := Nat.le_of_lt (Nat.lt_trans order.name_lt_opening opened)
    exact (visible caret).mpr ⟨named, Nat.le_trans closed (reaches.mpr whole)⟩

/-- A header that controls a header with a block. -/
def stackedText : List Char := "M()\x7busing(U u=b)using(V v=e)\x7bF f;G g;\x7d\x7d".toList

theorem nested_value (text : String) : Nested [.mark '=', .word text] :=
  .plain (isPlain_mark (by decide)) (.plain (isPlain_word text) .nil)

def outerHeader : LocalHeader where
  keyword := "using"
  start := 4
  opening := 9
  type := plainType ⟨{ text := "U" }, 10⟩
  name := ⟨{ text := "u" }, 12⟩
  tail := .value 13 [⟨.word "b", 14⟩]
  closing := 15
  fits := List.mem_cons_self
  nested := nested_value _

def innerHeader : LocalHeader where
  keyword := "using"
  start := 16
  opening := 21
  type := plainType ⟨{ text := "V" }, 22⟩
  name := ⟨{ text := "v" }, 24⟩
  tail := .value 25 [⟨.word "e", 26⟩]
  closing := 27
  fits := List.mem_cons_self
  nested := nested_value _

/-- The inner header as a part of what the outer one controls. -/
def innerLink : HeaderLink :=
  ⟨"using", 16, 21, [⟨.word "V", 22⟩, ⟨.word "v", 24⟩, ⟨.mark '=', 25⟩, ⟨.word "e", 26⟩], 27⟩

/-- The block of both headers, behind further ones. -/
def stackedBlock (links : List HeaderLink) : Controlled where
  links := links
  opening := 28
  inside := [⟨.word "F", 29⟩, ⟨.word "f", 31⟩, ⟨.mark ';', 32⟩, ⟨.word "G", 33⟩, ⟨.word "g", 35⟩, ⟨.mark ';', 36⟩]
  closing := 37
  nested := (nested_statement "F" "f").append (nested_statement "G" "g")

theorem header_local_scope_stacked :
    ∃ u v, u ∈ blockLocals ⟨stackedText, 39⟩ false (markAt '{' 3) (tokensFrom 4 (stackedText.drop 4)) ∧
      v ∈ blockLocals ⟨stackedText, 39⟩ false (markAt '{' 3) (tokensFrom 4 (stackedText.drop 4)) ∧
      u.name = "u" ∧ ¬ 37 ≤ u.span.stop ∧ v.name = "v" ∧ 37 ≤ v.span.stop := by
  have within : 0 + utf8Length stackedText ≤ 39 := by decide
  have spelled : tokensFrom 0 stackedText =
      [⟨.word "M", 0⟩, ⟨.mark '(', 1⟩, ⟨.mark ')', 2⟩] ++ markAt '{' 3 :: tokensFrom 4 (stackedText.drop 4) := by
    decide +kernel
  have outer : insideGroup .brace (tokensFrom 4 (stackedText.drop 4)) =
      [] ++ (outerHeader.tokens ++ (stackedBlock [innerLink]).tokens ++ []) := by decide +kernel
  have inner : insideGroup .brace (tokensFrom 4 (stackedText.drop 4)) =
      outerHeader.tokens ++ (innerHeader.tokens ++ (stackedBlock []).tokens ++ []) := by decide +kernel
  have broken : ¬ (stackedBlock [innerLink]).Unbroken := by
    rintro (none | whole)
    · exact List.cons_ne_nil _ _ none
    · exact whole ⟨.mark ';', 32⟩ (by decide) rfl
  obtain ⟨⟨-, recordedOuter⟩, reachesOuter, -⟩ :=
    header_local_scope outerHeader (stackedBlock [innerLink]) ⟨stackedText, 39⟩ false _ within spelled outer
  obtain ⟨⟨-, recordedInner⟩, reachesInner, -⟩ :=
    header_local_scope innerHeader (stackedBlock []) ⟨stackedText, 39⟩ false _ within spelled inner
  exact ⟨_, _, recordedOuter, recordedInner, rfl, broken ∘ reachesOuter.mp, rfl, reachesInner.mpr (.inl rfl)⟩

/-- The local of a header ends with the first statement of the block of the next header and is not visible
behind it. A second local of a header is not recorded, and no pointer is. -/
theorem stacked_header_local_ends_early :
    let locals := blockLocals ⟨stackedText, 39⟩ false (markAt '{' 3) (tokensFrom 4 (stackedText.drop 4))
    locals.map (fun v => (v.name, v.span)) = [("u", ⟨12, 32⟩), ("v", ⟨24, 37⟩), ("f", ⟨31, 37⟩), ("g", ⟨35, 37⟩)] ∧
      (({ vars := locals } : Declarations).visibleVariables .instanceBody 37).map (·.name) = ["v", "f", "g"] ∧
      (let text := "\x7bfor(int i=0,j=1;;)\x7bk();\x7dfixed(int*p=q)\x7bk();\x7d\x7d".toList
      (blockLocals ⟨text, 46⟩ false (markAt '{' 0) (tokensFrom 1 (text.drop 1))).map fun v => (v.name, v.span)) =
        [("i", ⟨9, 24⟩)] := by
  decide +kernel

end Typeahead.Source
