import Typeahead.Lookup.PathHelper
import Typeahead.Proofs.Catalog.NameSlices
import Typeahead.Proofs.Source.Blanking
import Typeahead.Proofs.Source.ByteScan
import Typeahead.Proofs.Source.ExpressionSlices
import Typeahead.Proofs.Source.SpanBounds

namespace Typeahead.Lookup

open Text Source Catalog

/-- Comments and literals. They are found and blanked among bytes, and what is left are the bytes of a
text. -/
structure RegionSlices (source : List Char) : Prop where
  inBytes : regionsOfBytes source = regions source
  blanked : blankedBytes source = bytesAsChars (blank source)
  fits : ∀ r ∈ regions source, r.Fits source

theorem regionSlices (source : List Char) : RegionSlices source :=
  ⟨regionsOfBytes_eq source, blankedBytes_eq source, fun _ => Region.fits_of_mem⟩

/-- What a search finds, and what stands around it: modifiers before a keyword, the body of a `using`
directive, the name of a namespace. -/
structure SearchSlices (text : List Char) : Prop where
  found : ∀ p ∈ places text, ∀ word, word <+: p.rest →
    slice p.offset (p.offset + utf8Length word) text = .ok word
  modifiers : ∀ p ∈ places text, ∃ start, slice start p.offset text = .ok (modifiersBefore p)
  usingBody : ∀ p ∈ wordPlaces "using".toList text, ∀ body semicolon later,
    breakFirst (· == ';') (p.rest.drop 5) = some (body, semicolon, later) →
      slice (p.offset + 5) (p.offset + 5 + utf8Length body) text = .ok body ∧
        IsBoundary (p.offset + 5 + utf8Length body + 1) text
  namespaceName : ∀ p ∈ wordPlaces "namespace".toList text,
    let rest := p.rest.drop 9
    let name := (trimStart rest).takeWhile isDottedNameChar
    let start := p.offset + 9 + utf8Length (rest.takeWhile isBlank)
    slice start (start + utf8Length name) text = .ok name

theorem searchSlices (text : List Char) : SearchSlices text where
  found _ member _ here := slice_of_mem_places member here
  modifiers _ := slice_modifiersBefore
  usingBody _ member _ _ _ := slice_usingBody member
  namespaceName _ := slice_namespaceName

/-- A type declaration: its header and body, the tokens of the body, whatever stands between two of
them, and the spans of its declarations. -/
structure TypeSlices (text : List Char) (r : TypeRegion) : Prop where
  region : RegionFits text r
  token : ∀ t ∈ bodyTokens text r, slice t.start t.stop text = .ok t.lexeme.text
  inBytes : byteBoundsFrom r.bodyStart (bytesAsChars (between r.bodyStart (bodyScan text r).stop text)) =
    (bodyTokens text r).map fun t => (t.start, t.stop)
  between : ∀ first last, first ⊆ bodyTokens text r → last ⊆ bodyTokens text r →
    ∃ piece, slice ((bodyScan text r).offsetOf first)
        (max ((bodyScan text r).offsetOf last) ((bodyScan text r).offsetOf first)) text = .ok piece ∧
      (bodyScan text r).textBetween first last = String.ofList (trim piece)
  spans : (Declarations.ofType text r).BoundedBy (IsBoundary · text)
  inherited : (inheritedDeclarations text r).BoundedBy (IsBoundary · text)

theorem typeSlices {text : List Char} {r : TypeRegion} (fits : RegionFits text r) : TypeSlices text r where
  region := fits
  token _ := fits.slice_token
  inBytes := byteBoundsFrom_eq _ _
  between _ _ := fits.slice_textBetween
  spans := Declarations.boundedBy_ofType fits
  inherited := boundedBy_inheritedDeclarations fits

/-- The end of a text: its last line with what follows an option marker, and the expression that is
being typed with its chain and its last part. The expression is read backwards among bytes. -/
structure TypedSlices (before : List Char) : Prop where
  line : ∃ start, lineStart before (utf8Length before) = .ok start ∧
    slice start (utf8Length before) before = .ok (lastField (· == '\n') before)
  option : ∀ marker typed, embeddedOption? before = some (marker, typed) →
    ∃ start, slice start (utf8Length before) before = .ok typed
  entity : ∃ start, slice start (utf8Length before) before = .ok (Target.of before).entity.toList
  parts : (Target.of before).chain = "" ∧ (Target.of before).entity = (Target.of before).lookAhead ∨
    ∃ dot, slice 0 dot (Target.of before).entity.toList = .ok (Target.of before).chain.toList ∧
      slice dot (dot + 1) (Target.of before).entity.toList = .ok ['.'] ∧
      slice (dot + 1) (Target.of before).entity.utf8ByteSize (Target.of before).entity.toList =
        .ok (Target.of before).lookAhead.toList
  inBytes : Target.of (bytesAsChars before) =
    ⟨inBytes (Target.of before).entity, inBytes (Target.of before).chain, inBytes (Target.of before).lookAhead⟩

theorem typedSlices (before : List Char) : TypedSlices before where
  line := slice_line before
  option _ _ := slice_embeddedOption
  entity := (Target.slice_parts before).1
  parts := (Target.slice_parts before).2
  inBytes := Target.of_bytesAsChars before

/-- What is taken out of names, headers, expressions and paths: the base clause of a header without its
constraints, the arguments of an open call of an expression, the directory and the last part of a path. -/
structure PartSlices (text : List Char) : Prop where
  name : NameSlices text
  baseClause : ∀ depth clause, Source.baseClause depth text = some clause →
    ∃ colon, slice colon (colon + 1) text = .ok [':'] ∧
      slice (colon + 1) (utf8Length text) text = .ok clause
  constraints : ∃ stop, slice 0 stop text = .ok (beforeConstraints text)
  closing : ∀ offset depth, closingByte offset depth (bytesAsChars text) = closingBrace offset depth text
  openCall : ∀ read rest call, text = read ++ rest → (read.foldl ChainReader.step {}).call = some call →
    ∃ start arguments, slice start (utf8Length read) text = .ok arguments ∧
      call.blank = arguments.all isBlank
  path : ∀ directory separator name, breakLast isPathSeparator text = some (directory, separator, name) →
    ∃ stop, slice 0 stop text = .ok directory ∧ slice (stop + 1) (utf8Length text) text = .ok name

theorem slice_path {path directory name : List Char} {separator : Char}
    (split : breakLast isPathSeparator path = some (directory, separator, name)) :
    ∃ stop, slice 0 stop path = .ok directory ∧ slice (stop + 1) (utf8Length path) path = .ok name := by
  obtain ⟨whole, isSeparator, -⟩ := eq_append_of_breakLast split
  have one : separator.utf8Size = 1 := by
    simp only [isPathSeparator, Bool.or_eq_true, beq_iff_eq] at isSeparator
    rcases isSeparator with rfl | rfl <;> rfl
  refine ⟨utf8Length directory, ?_, ?_⟩
  · exact slice_of_append [] (separator :: name) whole rfl (Nat.zero_add _)
  · refine slice_of_append (directory ++ [separator]) [] (by simp [whole]) (by simp [one]) ?_
    rw [whole, utf8Length_append, utf8Length_cons, one]
    omega

theorem partSlices (text : List Char) : PartSlices text where
  name := nameSlices text
  baseClause _ _ := slice_of_baseClause
  constraints := slice_beforeConstraints text
  closing offset depth := closingByte_eq offset depth text
  openCall _ _ _ whole reading := whole ▸ slice_openCall reading
  path _ _ _ := slice_path

/-- The types of a context that are read: the one around the caret, and those found by their names. -/
def IsRead (ctx : Context) (r : TypeRegion) : Prop :=
  ctx.region = some r ∨ ∃ name, typeNamed ctx.text name = some r

/-- All that a lookup takes out by offsets. The caret parts the source and the blanked text; the searches
and the readers of names and expressions take their pieces out of any text. -/
structure CodeSlices (ctx : Context) : Prop where
  regions : RegionSlices ctx.source
  blanked : ctx.text = blank ctx.source
  beforeCaret : ∃ before later, cut ctx.caret ctx.source = .ok (before, later) ∧ TypedSlices before
  beforeCaretBlanked : ∃ before later, cut ctx.caret ctx.text = .ok (before, later) ∧ TypedSlices before
  searches : ∀ text, SearchSlices text
  types : ∀ r, IsRead ctx r → TypeSlices ctx.text r
  spans : ctx.declarations.BoundedBy (IsBoundary · ctx.text) ∧ ctx.inherited.BoundedBy (IsBoundary · ctx.text)
  parts : ∀ text, PartSlices text

theorem fits_of_isRead {source : List Char} {caret : Nat} {r : TypeRegion}
    (read : IsRead (Context.of source caret) r) : RegionFits (blank source) r := by
  have boundary := isBoundary_blank (isBoundary_floorBoundary caret source)
  rcases read with around | ⟨name, found⟩
  · exact fits_of_enclosingType boundary around
  · exact fits_of_typeNamed found

theorem boundedBy_declarations (source : List Char) (caret : Nat) :
    (Context.of source caret).declarations.BoundedBy (IsBoundary · (blank source)) ∧
      (Context.of source caret).inherited.BoundedBy (IsBoundary · (blank source)) := by
  have declarations : (Context.of source caret).declarations =
      ((Context.of source caret).region.map (Declarations.ofType (blank source))).getD {} := rfl
  have inherited : (Context.of source caret).inherited =
      ((Context.of source caret).region.map (inheritedDeclarations (blank source))).getD {} := rfl
  rw [declarations, inherited]
  cases around : (Context.of source caret).region with
  | none => exact ⟨Declarations.boundedBy_empty, Declarations.boundedBy_empty⟩
  | some r =>
    have fits := fits_of_isRead (.inl around)
    exact ⟨Declarations.boundedBy_ofType fits, boundedBy_inheritedDeclarations fits⟩

theorem codeSlices (source : List Char) (caret : Nat) : CodeSlices (Context.of source caret) where
  regions := regionSlices source
  blanked := rfl
  beforeCaret := ⟨_, _, cut_floorBoundary caret source, typedSlices _⟩
  beforeCaretBlanked := by
    obtain ⟨⟨before, later⟩, parts⟩ :=
      isBoundary_iff_cut.mp (isBoundary_blank (isBoundary_floorBoundary caret source))
    exact ⟨before, later, parts, typedSlices before⟩
  searches := searchSlices
  types _ read := typeSlices (fits_of_isRead read)
  spans := boundedBy_declarations source caret
  parts := partSlices

/-- Wherever the caret is, also behind the end or inside a character, there is an answer. -/
theorem exists_response (helper : Option EmbeddedHelper) (catalog : Catalog) (nonPublic : Bool)
    (source : List Char) (caret : Nat) :
    ∃ response, lookupCode helper catalog nonPublic source caret = .ok response := by
  obtain ⟨before, later, parts, -⟩ := (codeSlices source caret).beforeCaret
  obtain ⟨shown, rest, blanked, -⟩ := (codeSlices source caret).beforeCaretBlanked
  unfold lookupCode
  simp only [parts, blanked, bind, Except.bind, pure, Except.pure]
  split
  · exact ⟨_, rfl⟩
  · split
    · exact ⟨_, rfl⟩
    · exact ⟨_, rfl⟩

/-- The lookup in code takes nothing out of a text but between two boundaries. -/
theorem lookupCode_slices (helper : Option EmbeddedHelper) (catalog : Catalog) (nonPublic : Bool)
    (source : List Char) (caret : Nat) :
    (∃ response, lookupCode helper catalog nonPublic source caret = .ok response) ∧
      CodeSlices (Context.of source caret) :=
  ⟨exists_response helper catalog nonPublic source caret, codeSlices source caret⟩

end Typeahead.Lookup
