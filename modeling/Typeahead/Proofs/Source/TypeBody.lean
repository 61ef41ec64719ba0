import Typeahead.Proofs.Source.MemberSyntax

namespace Typeahead.Source

variable (scope : BodyScope) {t : Token} {ts front body rest : List Token}

/-- The first token of a member is a word. -/
theorem exists_word_of_modifiers {modifiers : Modifiers} {word : String}
    (spelled : front.map (·.lexeme) = modifiers.lexemes) (starts : nextWord? body = some word)
    (split : front ++ body = t :: ts) : ∃ first, t.lexeme = .word first := by
  cases modifiers with
  | nil =>
    obtain rfl := List.map_eq_nil_iff.mp spelled
    rw [List.nil_append] at split
    rw [split] at starts
    exact ⟨word, lexeme_of_word? starts⟩
  | cons modifier modifiers =>
    obtain ⟨first, more, rfl, isWord, _⟩ := List.map_eq_cons_iff.mp spelled
    obtain ⟨rfl, -⟩ := List.cons.inj split
    exact ⟨modifier.val, isWord⟩

/-- What the scan does after the modifiers of a member. -/
theorem memberFrom_modified {modifiers : Modifiers} {word : String}
    (spelled : front.map (·.lexeme) = modifiers.lexemes) (starts : nextWord? body = some word)
    (unmodified : word ∉ modifierWords) (split : front ++ body = t :: ts) :
    memberFrom scope t ts =
      let isStatic := modifiers.isStatic scope.isStatic
      let isPrivate := !(modifiers.map (·.val)).any ["public", "protected", "internal"].contains
      if nestedTypeWords.contains word then ({}, skipMember body)
      else
        match readType? body with
        | none => ({}, skipMember body)
        | some (written, named) =>
          if nextIs '(' named then methodFrom scope.scan isStatic none (named.drop 1)
          else
            match nextName? named with
            | none => ({}, skipMember body)
            | some name =>
              let head : MemberHead := ⟨written, scope.scan.offsetOf body, isStatic, isPrivate⟩
              let read := namedMember scope head name named (skipMember body)
              ({ privateNames := if isPrivate then [name] else [] } ++ read.1, read.2) := by
  obtain ⟨first, isWord⟩ := exists_word_of_modifiers spelled starts split
  have words : front.map (·.lexeme) = (modifiers.map (·.val)).map .word := by
    rw [spelled, Modifiers.lexemes, List.map_map]
    rfl
  have within : ∀ word ∈ modifiers.map (·.val), word ∈ modifierWords := by
    intro word inside
    obtain ⟨modifier, _, rfl⟩ := List.mem_map.mp inside
    exact modifier.property
  have ends : (nextWord? body).any modifierWords.contains = false := by simp [starts, unmodified]
  have taken := takeWhile_words_append words within ends
  have dropped := dropWords_append words within ends
  have static : modifiers.isStatic scope.isStatic =
      (scope.isStatic || (modifiers.map (·.val)).any ["static", "const"].contains) := by
    rw [Modifiers.isStatic, List.any_map]
    rfl
  have notSquare : t.isMark '[' = false := isMark_eq_false (by simp [isWord])
  unfold memberFrom
  rw [notSquare, isWord, ← split, taken, dropped, static]
  simp only [starts, Option.any_some]
  rfl

/-- A member with a type and a name is read from its name on. -/
theorem memberFrom_typed {modifiers : Modifiers} {type : MemberType} {name : Name} {written later : List Token}
    {word : Token} (spelled : front.map (·.lexeme) = modifiers.lexemes)
    (spelledType : written.map (·.lexeme) = type.expr.lexemes) (isName : word.lexeme = .word name.text)
    (split : front ++ (written ++ word :: later) = t :: ts) :
    ∃ head skip, head.typeName = type.expr.text ∧ head.isStatic = modifiers.isStatic scope.isStatic ∧
      memberFrom scope t ts =
        ({ privateNames := if head.isPrivate then [name.text] else [] } ++
            (namedMember scope head name.text (word :: later) skip).1,
          (namedMember scope head name.text (word :: later) skip).2) := by
  have starts := nextWord?_expr spelledType (word :: later)
  have ends : EndsType (word :: later) := endsType_word isName
  have unnested : nestedTypeWords.contains type.expr.head.text = false := by simpa using type.unnested
  rw [memberFrom_modified scope spelled starts type.unmodified split]
  simp only [unnested, readType?_expr spelledType ends, nextIs_word isName, nextName?_name isName,
    Bool.false_eq_true, if_false]
  exact ⟨⟨_, _, _, _⟩, _, rfl, rfl, rfl⟩

theorem memberFrom_named {modifiers : Modifiers} {type : MemberType} {name : Name} {written later : List Token}
    {word : Token} (spelled : front.map (·.lexeme) = modifiers.lexemes)
    (spelledType : written.map (·.lexeme) = type.expr.lexemes) (isName : word.lexeme = .word name.text)
    (split : front ++ (written ++ word :: later) = t :: ts) :
    ∃ head skip, head.typeName = type.expr.text ∧ head.isStatic = modifiers.isStatic scope.isStatic ∧
      (memberFrom scope t ts).1.outline = (namedMember scope head name.text (word :: later) skip).1.outline ∧
      (memberFrom scope t ts).2 = (namedMember scope head name.text (word :: later) skip).2 := by
  obtain ⟨head, skip, typed, static, read⟩ := memberFrom_typed scope spelled spelledType isName split
  refine ⟨head, skip, typed, static, ?_, by rw [read]⟩
  rw [read, Declarations.outline_append]
  rfl

/-- Reading one member yields what it declares and leaves what follows it. -/
theorem memberFrom_member (m : MemberSyntax) (spelled : front.map (·.lexeme) = m.lexemes)
    (split : front ++ rest = t :: ts) :
    (memberFrom scope t ts).1.outline = m.outline scope.isStatic ∧ (memberFrom scope t ts).2 = rest := by
  cases m with
  | method modifiers returns name parameters body =>
    obtain ⟨start, tail, rfl, spelledStart, spelledTail⟩ := List.map_eq_append_iff.mp spelled
    obtain ⟨mods, written, rfl, spelledMods, spelledType⟩ := List.map_eq_append_iff.mp spelledStart
    obtain ⟨word, tail, rfl, isName, spelledTail⟩ := List.map_eq_cons_iff.mp spelledTail
    obtain ⟨opening, tail, rfl, isOpening, spelledTail⟩ := List.map_eq_cons_iff.mp spelledTail
    obtain ⟨list, tail, rfl, spelledList, spelledTail⟩ := List.map_eq_append_iff.mp spelledTail
    obtain ⟨closing, after, rfl, isClosing, spelledBody⟩ := List.map_eq_cons_iff.mp spelledTail
    obtain ⟨head, skip, written, static, outline, left⟩ :=
      memberFrom_named scope spelledMods spelledType isName (by simpa using split)
    obtain ⟨declares, ends⟩ := namedMember_method scope head name.text word isOpening spelledList isClosing
      spelledBody rest skip
    exact ⟨by rw [outline, declares, written, static]; rfl, left.trans ends⟩
  | property modifiers type name body =>
    obtain ⟨start, tail, rfl, spelledStart, spelledTail⟩ := List.map_eq_append_iff.mp spelled
    obtain ⟨mods, written, rfl, spelledMods, spelledType⟩ := List.map_eq_append_iff.mp spelledStart
    obtain ⟨word, after, rfl, isName, spelledBody⟩ := List.map_eq_cons_iff.mp spelledTail
    obtain ⟨head, skip, written, static, outline, left⟩ :=
      memberFrom_named scope spelledMods spelledType isName (by simpa using split)
    obtain ⟨declares, ends⟩ := namedMember_property scope head name.text word spelledBody rest skip
    exact ⟨by rw [outline, declares, written, static]; rfl, left.trans ends⟩
  | field modifiers type name =>
    obtain ⟨start, tail, rfl, spelledStart, spelledTail⟩ := List.map_eq_append_iff.mp spelled
    obtain ⟨mods, written, rfl, spelledMods, spelledType⟩ := List.map_eq_append_iff.mp spelledStart
    obtain ⟨word, tail, rfl, isName, spelledEnd⟩ := List.map_eq_cons_iff.mp spelledTail
    obtain ⟨semicolon, tail, rfl, isEnd, none⟩ := List.map_eq_cons_iff.mp spelledEnd
    obtain rfl := List.map_eq_nil_iff.mp none
    obtain ⟨head, skip, written, static, outline, left⟩ :=
      memberFrom_named scope spelledMods spelledType isName (by simpa using split)
    obtain ⟨declares, ends⟩ := namedMember_field scope head isName isEnd rest skip
    exact ⟨by rw [outline, declares, written, static]; rfl, left.trans ends⟩
  | nestedType modifiers keyword header clause code nested =>
    obtain ⟨mods, tail, rfl, spelledMods, spelledTail⟩ := List.map_eq_append_iff.mp spelled
    obtain ⟨word, tail, rfl, isKeyword, spelledTail⟩ := List.map_eq_cons_iff.mp spelledTail
    obtain ⟨title, tail, rfl, spelledHeader, spelledTail⟩ := List.map_eq_append_iff.mp spelledTail
    obtain ⟨opening, tail, rfl, isOpening, spelledTail⟩ := List.map_eq_cons_iff.mp spelledTail
    obtain ⟨inside, tail, rfl, spelledCode, spelledEnd⟩ := List.map_eq_append_iff.mp spelledTail
    obtain ⟨closing, tail, rfl, isClosing, none⟩ := List.map_eq_cons_iff.mp spelledEnd
    obtain rfl := List.map_eq_nil_iff.mp none
    have starts : nextWord? (word :: (title ++ opening :: (inside ++ closing :: rest))) = some keyword.val :=
      nextWord?_word isKeyword
    have apart : ∀ word ∈ nestedTypeWords, word ∉ modifierWords := by decide
    have titled : Clause ((word :: title).map (·.lexeme)) := by
      rw [List.map_cons, isKeyword, spelledHeader]
      exact .plain (isPlain_word _) (by simp) clause
    have skipped := skipMember_block titled isOpening (spelledCode ▸ nested) isClosing rest
    have isNested : nestedTypeWords.contains keyword.val = true := by simpa using keyword.property
    rw [memberFrom_modified scope spelledMods starts (apart _ keyword.property) (by simpa using split)]
    simp only [isNested, if_true]
    exact ⟨rfl, by simpa using skipped⟩

theorem MemberSyntax.lexemes_ne_nil (m : MemberSyntax) : m.lexemes ≠ [] := by
  cases m <;> simp [lexemes]

/-- The scan of a sequence of members finds what they declare, in order. -/
theorem outline_membersFrom (members : List MemberSyntax)
    (spelled : ts.map (·.lexeme) = members.flatMap (·.lexemes)) :
    (membersFrom scope ts).outline = Outline.ofMembers scope.isStatic members := by
  induction members generalizing ts with
  | nil =>
    obtain rfl := List.map_eq_nil_iff.mp spelled
    rw [membersFrom]
    rfl
  | cons m members ih =>
    obtain ⟨front, rest, rfl, spelledFirst, spelledRest⟩ := List.map_eq_append_iff.mp spelled
    cases split : front ++ rest with
    | nil =>
      obtain ⟨rfl, -⟩ := List.append_eq_nil_iff.mp split
      exact absurd spelledFirst.symm m.lexemes_ne_nil
    | cons t ts =>
      obtain ⟨declares, left⟩ := memberFrom_member scope m spelledFirst split
      rw [membersFrom, Declarations.outline_append, declares, left, ih spelledRest]
      rfl

/-- A type whose body is a sequence of members is recovered: the methods with their return types and
parameters, the properties and the fields, each with its normally spelled type and static or not as it is
declared, in source order and nothing else. -/
theorem outline_ofType (text : List Char) (region : TypeRegion) (members : List MemberSyntax)
    (spelled : (tokensFrom region.bodyStart
        (Text.between region.bodyStart (min region.stop (Text.utf8Length text)) text)).map (·.lexeme) =
      members.flatMap (·.lexemes)) :
    (Declarations.ofType text region).outline = Outline.ofMembers region.isStatic members :=
  outline_membersFrom _ members spelled

/-- A type with a member of each kind. -/
def shopText : List Char :=
  ("class Shop\x7bstatic A<B<C,K.D>>?[,]P\x7bget;\x7dR F(T t,R[]r)\x7bif(t)\x7bT u;\x7d\x7d" ++
    "record L(T x):M\x7bT q;\x7dconst T c;T G()=>Of(x=>\x7by;\x7d);\x7d").toList

def shopRegion : TypeRegion :=
  { start := 0, bodyStart := 11, stop := 116, name := "Shop", bases := [], isStatic := false }

/-- A simple type expression of a word. -/
def simpleType (word : String) (free : word ∉ reservedWords := by decide +kernel) : TypeExpr := .named ⟨word, free⟩

theorem nested_statement (first second : String) : Nested [.word first, .word second, .mark ';'] :=
  .plain (isPlain_word _) (.plain (isPlain_word _) (.plain (isPlain_mark (by decide)) .nil))

def shopMembers : List MemberSyntax :=
  [.property [⟨"static", by decide⟩]
      { expr := .mk { text := "A" } []
          [.mk { text := "B" } [] [simpleType "C", .mk { text := "K" } ["D"] [] false []] false []] true [1] }
      { text := "P" }
      (.block [.word "get", .mark ';'] (.plain (isPlain_word _) (.plain (isPlain_mark (by decide)) .nil))),
    .method [] { expr := simpleType "R" } { text := "F" }
      [{ type := simpleType "T", name := { text := "t" } },
        { type := .mk { text := "R" } [] [] false [0], name := { text := "r" } }]
      (some (.block _ (.plain (isPlain_word "if")
        (.group .paren (.plain (isPlain_word "t") .nil) (.group .brace (nested_statement "T" "u") .nil))))),
    .nestedType [] ⟨"record", by decide⟩ _
      (.plain (isPlain_word "L") (by decide)
        (.group .paren (by decide) (.plain (isPlain_word "T") (.plain (isPlain_word "x") .nil))
          (.plain (isPlain_mark (c := ':') (by decide)) (by decide) (.plain (isPlain_word "M") (by decide) .nil))))
      _ (nested_statement "T" "q"),
    .field [⟨"const", by decide⟩] { expr := simpleType "T" } { text := "c" },
    .method [] { expr := simpleType "T" } { text := "G" } []
      (some (.arrow _ (.plain (isPlain_word "Of") (by decide)
        (.group .paren (by decide)
          (.plain (isPlain_word "x") (.plain (isPlain_mark (c := '=') (by decide))
            (.plain (isPlain_mark (c := '>') (by decide))
              (.group .brace (.plain (isPlain_word "y") (.plain (isPlain_mark (c := ';') (by decide)) .nil)) .nil))))
          .nil))))]

theorem outline_ofType_shop :
    enclosingType shopText 11 = some shopRegion ∧
      (Declarations.ofType shopText shopRegion).outline =
        { methods := [⟨"F", "R", false, [⟨"T", "t"⟩, ⟨"R[]", "r"⟩]⟩, ⟨"G", "T", false, []⟩]
          properties := [{ name := "P", typeName := "A<B<C, K.D>>?[,]", isStatic := true }]
          fields := [{ name := "c", typeName := "T", isStatic := true }] } := by
  have spelled : (tokensFrom shopRegion.bodyStart (Text.between shopRegion.bodyStart
      (min shopRegion.stop (Text.utf8Length shopText)) shopText)).map (·.lexeme) =
        shopMembers.flatMap (·.lexemes) := by decide +kernel
  refine ⟨by decide +kernel, ?_⟩
  rw [outline_ofType shopText shopRegion shopMembers spelled]
  decide +kernel

end Typeahead.Source
