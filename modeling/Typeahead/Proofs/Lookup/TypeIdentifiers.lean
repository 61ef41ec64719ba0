import Typeahead.Lookup.Stage
import Typeahead.Proofs.Catalog.TypeTerm
import Typeahead.Proofs.Lookup.CandidateSet
import Typeahead.Proofs.Source.BaseClosure
import Typeahead.Proofs.Source.ChainText
import Typeahead.Proofs.Source.Contents
import Typeahead.Proofs.Source.TypeKeywords

namespace Typeahead.Source

open Text

/-- What a declaration writes: the keyword, blanks, and an identifier as far as it goes. -/
structure Declares (p : Place) (keyword name : List Char) : Prop where
  has : HasKeyword p keyword
  behind : ∃ blanks rest, textBehind keyword p = blanks ++ (name ++ rest) ∧ blanks.head?.any isAsciiBlank = true ∧
    (∀ c ∈ blanks, isBlank c = true) ∧ rest.head?.any isIdentifierChar = false
  identifier : ∀ c ∈ name, isIdentifierChar c = true
  begins : ∃ c ∈ name.head?, isBlank c = false ∧ c.isDigit = false

/-- All characters are ASCII. -/
def IsAscii (name : List Char) : Prop := ∀ c ∈ name, c.toNat < 0x80

instance (name : List Char) : Decidable (IsAscii name) := List.decidableBAll (fun c : Char => c.toNat < 0x80) name

variable {text keyword name : List Char} {p : Place} {r : TypeRegion} {stop : Nat}

theorem length_le_utf8Length (cs : List Char) : cs.length ≤ utf8Length cs := by
  induction cs with
  | nil => exact Nat.le_refl _
  | cons c cs ih =>
    have := c.utf8Size_pos
    rw [List.length_cons, utf8Length_cons]
    omega

/-- A text is its own bytes only if it is ASCII, since any other character has several. -/
theorem bytesAsChars_eq_self_iff (cs : List Char) : bytesAsChars cs = cs ↔ IsAscii cs := by
  induction cs with
  | nil => simp [IsAscii]
  | cons c cs ih =>
    constructor
    · intro same
      have size : utf8Length (c :: cs) = (c :: cs).length := by rw [← length_bytesAsChars, same]
      rw [utf8Length_cons, List.length_cons] at size
      have := c.utf8Size_pos
      have := length_le_utf8Length cs
      have one : c.utf8Size = 1 := by omega
      have ascii : c.toNat < 0x80 := by
        have small := UInt32.le_iff_toNat_le.mp (Char.utf8Size_eq_one_iff.mp one)
        exact Nat.lt_succ_of_le small
      rw [bytesAsChars_cons_of_ascii ascii, List.cons_inj_right] at same
      exact List.forall_mem_cons.mpr ⟨ascii, ih.mp same⟩
    · intro ascii
      obtain ⟨first, others⟩ := List.forall_mem_cons.mp ascii
      rw [bytesAsChars_cons_of_ascii first, ih.mpr others]

theorem trimStart_blanks_append {blanks rest : List Char} (blank : ∀ c ∈ blanks, isBlank c = true)
    (begins : ∃ c ∈ name.head?, isBlank c = false ∧ c.isDigit = false) :
    trimStart (blanks ++ (name ++ rest)) = name ++ rest := by
  obtain ⟨c, first, dark, -⟩ := begins
  rw [trimStart_append blank]
  refine trimStart_eq fun d head => ?_
  rw [List.head?_append, first, Option.some_or, Option.some.injEq] at head
  exact head ▸ dark

theorem takeWhile_isIdentifierChar_append {rest : List Char} (identifier : ∀ c ∈ name, isIdentifierChar c = true)
    (ends : rest.head?.any isIdentifierChar = false) : (name ++ rest).takeWhile isIdentifierChar = name := by
  rw [List.takeWhile_append_of_pos identifier]
  cases rest with
  | nil => rw [List.takeWhile_nil, List.append_nil]
  | cons c rest =>
    have other : ¬ isIdentifierChar c = true := by simpa using ends
    rw [List.takeWhile_cons_of_neg other, List.append_nil]

theorem HasKeyword.begins (has : HasKeyword p keyword) : keyword <+: p.rest := by
  have stands := has.stands
  simp only [Place.hasWord, Bool.and_eq_true, List.isPrefixOf_iff_prefix] at stands
  exact stands.1.1

namespace Declares

theorem written (declares : Declares p keyword name) :
    (trimStart (textBehind keyword p)).takeWhile isIdentifierChar = name := by
  obtain ⟨blanks, rest, shape, -, blank, ends⟩ := declares.behind
  rw [shape, trimStart_blanks_append blank declares.begins,
    takeWhile_isIdentifierChar_append declares.identifier ends]

/-- A place writes one name. -/
theorem name_eq {otherKeyword other : List Char} (declares : Declares p keyword name)
    (again : Declares p otherKeyword other) : other = name := by
  obtain rfl := eq_of_prefix declares.has.isKeyword again.has.isKeyword declares.has.begins again.has.begins
  exact again.written.symm.trans declares.written

/-- No brace stands in front of the end of the name. -/
theorem beforeBrace (declares : Declares p keyword name) {blanks : List Char}
    (blank : ∀ c ∈ blanks, isBlank c = true) : ∀ c ∈ keyword ++ (blanks ++ name), (c == '\x7b') = false := by
  have keywords : ∀ word ∈ typeKeywords, '\x7b' ∉ word := by decide
  intro c member
  refine beq_eq_false_iff_ne.mpr ?_
  rintro rfl
  rcases List.mem_append.mp member with inKeyword | member
  · exact keywords keyword declares.has.isKeyword inKeyword
  · rcases List.mem_append.mp member with inBlanks | inName
    · exact absurd (blank _ inBlanks) (by decide)
    · exact absurd (declares.identifier _ inName) (by decide)

/-- The name stands in the header behind the first blank and those that follow it. -/
theorem named_of_header (declares : Declares p keyword name) {header body : List Char} {brace : Char}
    (breaks : breakFirst (· == '\x7b') p.rest = some (header, brace, body)) :
    ∃ rest, trimStart ((header.dropWhile (!isBlank ·)).drop 1) = name ++ rest ∧
      rest.head?.any isIdentifierChar = false := by
  obtain ⟨blanks, rest, shape, blankFirst, blank, ends⟩ := declares.behind
  obtain ⟨behind, whole⟩ := declares.has.begins
  rw [textBehind, ← whole, List.drop_left] at shape
  obtain ⟨split, isBrace, none⟩ := eq_append_of_breakFirst breaks
  have parts : (keyword ++ (blanks ++ name)) ++ rest = header ++ brace :: body := by
    rw [← split, ← whole, shape]
    simp only [List.append_assoc]
  obtain ⟨inside, isHeader, isRest⟩ : ∃ inside, header = (keyword ++ (blanks ++ name)) ++ inside ∧
      rest = inside ++ brace :: body := by
    rcases List.append_eq_append_iff.mp parts with ⟨inside, isHeader, isRest⟩ | ⟨back, isFront, isTail⟩
    · exact ⟨inside, isHeader, isRest⟩
    · cases back with
      | nil => exact ⟨[], by simpa using isFront.symm, by simpa using isTail.symm⟩
      | cons c back =>
        obtain ⟨rfl, -⟩ := List.cons.inj isTail
        have noBrace := declares.beforeBrace blank brace (by rw [isFront]; simp)
        exact absurd isBrace (by rw [noBrace]; decide)
  refine ⟨inside, ?_, ?_⟩
  · obtain ⟨b, others, rfl⟩ : ∃ b others, blanks = b :: others := by
      cases blanks with
      | nil => simp at blankFirst
      | cons b others => exact ⟨b, others, rfl⟩
    obtain ⟨first, blank⟩ := List.forall_mem_cons.mp blank
    have keywords : ∀ word ∈ typeKeywords, word.all (!isBlank ·) = true := by decide
    have noBlank := List.all_eq_true.mp (keywords keyword declares.has.isKeyword)
    rw [isHeader, List.append_assoc, List.dropWhile_append_of_pos noBlank, List.cons_append, List.cons_append,
      List.dropWhile_cons_of_neg (by simp [first]), List.drop_one, List.tail_cons, List.append_assoc,
      trimStart_blanks_append blank declares.begins]
  · cases inside with
    | nil => rfl
    | cons c inside => simpa [isRest] using ends

/-- The region reads the name that is written, one character for each byte. -/
theorem name_of_at? (declares : Declares p keyword name) (found : TypeRegion.at? stop p = some r) :
    r.name = String.ofList (bytesAsChars name) := by
  unfold TypeRegion.at? at found
  split at found
  · simp at found
  · next header brace body breaks =>
    obtain ⟨rest, named, ends⟩ := declares.named_of_header breaks
    split at found
    · simp at found
    · obtain rfl := Option.some.inj found
      simp only
      rw [named, takeWhile_isIdentifierChar_append declares.identifier ends]

/-- The type is known by the name that is written exactly if that name is ASCII. -/
theorem name_eq_iff (declares : Declares p keyword name) (found : TypeRegion.at? stop p = some r) :
    r.name = String.ofList name ↔ IsAscii name := by
  rw [declares.name_of_at? found, String.ofList_inj, bytesAsChars_eq_self_iff]

/-- Types of one name are those whose declarations write one name. -/
theorem name_eq_bytes_iff {other : List Char} (declares : Declares p keyword name)
    (found : TypeRegion.at? stop p = some r) : r.name = String.ofList (bytesAsChars other) ↔ name = other := by
  rw [declares.name_of_at? found, String.ofList_inj]
  exact ⟨bytesAsChars_injective, congrArg bytesAsChars⟩

end Declares

/-- A keyword with a word behind it declares that word. -/
theorem HasKeyword.declares (has : HasKeyword p keyword) (word : WordBehind (textBehind keyword p)) :
    Declares p keyword ((trimStart (textBehind keyword p)).takeWhile isIdentifierChar) where
  has := has
  behind := by
    refine ⟨(textBehind keyword p).takeWhile isBlank, (trimStart (textBehind keyword p)).dropWhile isIdentifierChar,
      ?_, ?_, ?_, ?_⟩
    · rw [List.takeWhile_append_dropWhile, trimStart, List.takeWhile_append_dropWhile]
    · have blankFirst := word.1
      cases behind : textBehind keyword p with
      | nil => simp [behind] at blankFirst
      | cons b behind =>
        rw [behind, List.head?_cons, Option.any_some] at blankFirst
        simp [isBlank_of_isAsciiBlank blankFirst, blankFirst]
    · exact fun c member => List.all_eq_true.mp List.all_takeWhile c member
    · have stops := List.head?_dropWhile_not isIdentifierChar (trimStart (textBehind keyword p))
      cases next : ((trimStart (textBehind keyword p)).dropWhile isIdentifierChar).head? with
      | none => rfl
      | some c => simpa [next] using stops
  identifier := fun c member => List.all_eq_true.mp List.all_takeWhile c member
  begins := by
    have first := word.2
    have dark := List.head?_dropWhile_not isBlank (textBehind keyword p)
    rw [← trimStart] at dark
    cases named : trimStart (textBehind keyword p) with
    | nil => simp [named] at first
    | cons c others =>
      rw [named] at first dark
      simp only [List.head?_cons, Option.any_some, Bool.and_eq_true, Bool.not_eq_true'] at first dark
      rw [List.takeWhile_cons_of_pos first.1]
      exact ⟨c, rfl, dark, first.2⟩

/-- Every type declaration writes a name. -/
theorem exists_declares (declared : p ∈ typeDeclarations text) : ∃ keyword name, Declares p keyword name := by
  obtain ⟨-, isDeclaration⟩ := List.mem_filter.mp declared
  obtain ⟨keyword, has, word⟩ := declaresType_iff.mp isDeclaration
  exact ⟨keyword, _, has.declares word⟩

theorem TypeRegion.start_of_at? (found : TypeRegion.at? stop p = some r) : r.start = p.offset := by
  unfold TypeRegion.at? at found
  split at found
  · simp at found
  · split at found
    · simp at found
    · obtain rfl := Option.some.inj found
      rfl

/-- The type around a caret is declared in its text. -/
theorem exists_declares_of_enclosingType {caret : Nat} (found : enclosingType text caret = some r) :
    ∃ p ∈ typeDeclarations text, ∃ keyword name, Declares p keyword name ∧ r.start = p.offset ∧
      (r.name = String.ofList name ↔ IsAscii name) := by
  obtain ⟨p, member, inside⟩ := List.exists_of_findSome?_eq_some found
  have declared := (List.mem_filter.mp (List.mem_reverse.mp member)).1
  obtain ⟨region, -⟩ := Option.filter_eq_some_iff.mp inside
  obtain ⟨keyword, name, declares⟩ := exists_declares declared
  exact ⟨p, declared, keyword, name, declares, TypeRegion.start_of_at? region, declares.name_eq_iff region⟩

/-- The region is that of the first declaration with a body that writes the name. -/
def FirstWriting (text name : List Char) (r : TypeRegion) : Prop :=
  ∃ earlier p later, typeDeclarations text = earlier ++ p :: later ∧ (∃ keyword, Declares p keyword name) ∧
    TypeRegion.at? (utf8Length text) p = some r ∧
    ∀ q ∈ earlier, ∀ keyword, Declares q keyword name → TypeRegion.at? (utf8Length text) q = none

/-- What the search for a name tries at a place. -/
def namedRegion? (text : List Char) (wanted : String) (p : Place) : Option TypeRegion :=
  (TypeRegion.at? (utf8Length text) p).filter (·.name == wanted)

theorem namedRegion?_eq_some_iff {wanted : String} :
    namedRegion? text wanted p = some r ↔ TypeRegion.at? (utf8Length text) p = some r ∧ r.name = wanted := by
  rw [namedRegion?, Option.filter_eq_some_iff, beq_iff_eq]

/-- At a place that declares something else, or has no body, the search goes on. -/
theorem namedRegion?_bytes_eq_none_iff (declared : p ∈ typeDeclarations text) :
    namedRegion? text (String.ofList (bytesAsChars name)) p = none ↔
      ∀ keyword, Declares p keyword name → TypeRegion.at? (utf8Length text) p = none := by
  simp only [Option.eq_none_iff_forall_ne_some, ne_eq, namedRegion?_eq_some_iff, not_and]
  constructor
  · intro other keyword declares r found
    exact other r found (declares.name_of_at? found)
  · intro none r found named
    obtain ⟨keyword, written, declares⟩ := exists_declares declared
    obtain rfl := (declares.name_eq_bytes_iff found).mp named
    exact none keyword declares r found

/-- The search for the bytes of a name finds the first declaration that writes the name. -/
theorem typeNamed_bytes_eq_some_iff :
    typeNamed text (String.ofList (bytesAsChars name)) = some r ↔ FirstWriting text name r := by
  have search : typeNamed text (String.ofList (bytesAsChars name)) =
      (typeDeclarations text).findSome? (namedRegion? text (String.ofList (bytesAsChars name))) := rfl
  rw [search, List.findSome?_eq_some_iff]
  refine exists_congr fun earlier => exists_congr fun p => exists_congr fun later => and_congr_right fun split => ?_
  have member : p ∈ typeDeclarations text := by simp [split]
  have before : (∀ q ∈ earlier, namedRegion? text (String.ofList (bytesAsChars name)) q = none) ↔
      ∀ q ∈ earlier, ∀ keyword, Declares q keyword name → TypeRegion.at? (utf8Length text) q = none :=
    forall₂_congr fun q tried => namedRegion?_bytes_eq_none_iff (by simp [split, tried])
  rw [before, namedRegion?_eq_some_iff]
  constructor
  · rintro ⟨⟨found, named⟩, none⟩
    obtain ⟨keyword, written, declares⟩ := exists_declares member
    obtain rfl := (declares.name_eq_bytes_iff found).mp named
    exact ⟨⟨keyword, declares⟩, found, none⟩
  · rintro ⟨⟨keyword, declares⟩, found, none⟩
    exact ⟨⟨found, declares.name_of_at? found⟩, none⟩

/-- The search for a name that is written finds its declaration exactly if the name is ASCII. -/
theorem FirstWriting.typeNamed_eq_iff (first : FirstWriting text name r) :
    typeNamed text (String.ofList name) = some r ↔ IsAscii name := by
  have found := typeNamed_bytes_eq_some_iff.mpr first
  constructor
  · intro again
    rw [← bytesAsChars_eq_self_iff, ← String.ofList_inj, ← name_of_typeNamed found, name_of_typeNamed again]
  · intro ascii
    rwa [(bytesAsChars_eq_self_iff name).mpr ascii] at found

/-- Among the declarations that write a name and have a body one is the first. -/
theorem exists_firstWriting (declared : p ∈ typeDeclarations text) (declares : Declares p keyword name)
    (hasBody : (TypeRegion.at? (utf8Length text) p).isSome = true) : ∃ r, FirstWriting text name r := by
  obtain ⟨r, found⟩ := Option.isSome_iff_exists.mp hasBody
  have tried := namedRegion?_eq_some_iff.mpr ⟨found, declares.name_of_at? found⟩
  have some : (typeNamed text (String.ofList (bytesAsChars name))).isSome = true :=
    List.findSome?_isSome_iff.mpr ⟨p, declared, by
      rw [← namedRegion?, tried]
      rfl⟩
  obtain ⟨first, isFirst⟩ := Option.isSome_iff_exists.mp some
  exact ⟨first, typeNamed_bytes_eq_some_iff.mp isFirst⟩

/-- All that a base can pass on is among what is inherited; its variables hold in the body of the heir. -/
structure PassesOn (text : List Char) (base heir : TypeRegion) : Prop where
  vars : ∀ v ∈ (Declarations.ofType text base).inheritable.vars,
    { v with span := Span.of heir.bodyStart heir.stop } ∈ (inheritedDeclarations text heir).vars
  methods : ∀ m ∈ (Declarations.ofType text base).inheritable.methods, m ∈ (inheritedDeclarations text heir).methods
  properties : ∀ q ∈ (Declarations.ofType text base).inheritable.properties,
    q ∈ (inheritedDeclarations text heir).properties

theorem passesOn_of_mem_inheritedRegions {base heir : TypeRegion} (member : base ∈ inheritedRegions text heir) :
    PassesOn text base heir := by
  have within {α : Type} (part : Declarations → List α) (empty : part {} = [])
      (append : ∀ a b : Declarations, part (a ++ b) = part a ++ part b) {x : α}
      (passed : x ∈ part ((Declarations.ofType text base).inheritable.withSpan (Span.of heir.bodyStart heir.stop))) :
      x ∈ part (inheritedDeclarations text heir) := by
    rw [part_inheritedDeclarations part empty append]
    exact List.mem_flatMap.mpr ⟨base, member, passed⟩
  exact {
    vars := fun v kept => within Declarations.vars rfl Declarations.vars_append (List.mem_map_of_mem kept)
    methods := fun m kept => within Declarations.methods rfl Declarations.methods_append kept
    properties := fun q kept => within Declarations.properties rfl Declarations.properties_append kept }

/-- A base list that writes a name of ASCII leads to the first declaration of it, unless eight bases are found
without it. -/
theorem FirstWriting.mem_inheritedRegions {heir child : TypeRegion} {written : String}
    (first : FirstWriting text name r) (ascii : IsAscii name)
    (reached : child = heir ∨ child ∈ inheritedRegions text heir) (listed : written ∈ child.bases)
    (simple : simpleBaseName written = String.ofList name) (apart : heir.name ≠ String.ofList name) :
    r ∈ inheritedRegions text heir ∨ (inheritedRegions text heir).length = maxBases := by
  have found := first.typeNamed_eq_iff.mpr ascii
  have isBase : IsBase text child r := ⟨written, listed, by rw [simple, found]⟩
  have other : r.name ≠ heir.name := by
    rw [name_of_typeNamed found]
    exact apart.symm
  have isAncestor : IsAncestor text heir r := by
    rcases reached with rfl | among
    · exact .base isBase other
    · exact .next (isAncestor_of_mem_inheritedRegions among) isBase other
  have bounded : (inheritedRegions text heir).length ≤ maxBases := length_baseRegions_le
  rcases bounded.lt_or_eq with short | full
  · exact .inl (mem_inheritedRegions_of_isAncestor short isAncestor)
  · exact .inr full

/-- An identifier of ASCII is a chain of one segment. -/
theorem segmentsOf_identifier (nonempty : name ≠ []) (identifier : ∀ c ∈ name, isIdentifierChar c = true)
    (ascii : IsAscii name) : segmentsOf name = [{ name := String.ofList name }] := by
  have plain : ∀ n < 0x80, isIdentifierChar (Char.ofNat n) = true → isNameLetter (Char.ofNat n) = true := by
    decide +kernel
  have letters : name.all isNameLetter = true := by
    refine List.all_eq_true.mpr fun c member => ?_
    have letter := plain c.toNat (ascii c member)
    rw [Char.ofNat_toNat] at letter
    exact letter (identifier c member)
  rw [segmentsOf, ChainReader.foldl_letters letters, List.append_nil, ChainReader.endName,
    if_neg (by simpa using nonempty), List.reverse_reverse]
  rfl

/-- The names of static fields, properties and methods. -/
def Declarations.staticNames (ds : Declarations) : List String :=
  (ds.vars.filter fun v => v.kind == .field && v.isStatic).map (·.name) ++
    (ds.properties.filter (·.isStatic)).map (·.name) ++ (ds.methods.filter (·.isStatic)).map (·.name)

end Typeahead.Source

namespace Typeahead.Lookup

open Source Text

namespace Scope

variable {s : Scope}

theorem displayTexts_ownStatics (s : Scope) :
    s.ownStatics.items.map (·.displayText) = keepFirst s.context.declarations.staticNames := by
  have fields (ds : Declarations) : (ds.variablesIn .staticBody).filter (·.kind == .field) =
      ds.vars.filter fun v => v.kind == .field && v.isStatic := by
    have noLocals : (ds.vars.filter (·.kind != .field)).filter (·.kind == .field) = [] := by
      rw [List.filter_filter, List.filter_eq_nil_iff]
      simp
    rw [Declarations.variablesIn, List.filter_append, noLocals, List.nil_append, List.filter_filter]
    refine List.filter_congr fun v _ => ?_
    cases v.kind == .field <;> rfl
  rw [ownStatics, Outcome.items_ofItems, merged, CandidateSet.map_displayText_ofList, fields, Declarations.staticNames]
  simp only [List.map_append, List.map_map, Declarations.propertiesIn, Declarations.methodsIn]
  rfl

/-- In the body of a type its own name in front of a dot lists its statics, if the catalog has no type for it. -/
theorem staticStage_own {name : List Char} {target : Target} (own : s.context.typeName? = some (String.ofList name))
    (noType : s.resolve? (String.ofList name) = none) (dotted : target.hasDot = true)
    (chain : segmentsOf target.chain.toList = [{ name := String.ofList name }]) :
    s.staticStage target = s.ownStatics := by
  have noHead : s.staticHead? [{ name := String.ofList name }] = none := by
    simp [staticHead?, staticHeadFrom, noType]
  rw [staticStage, if_pos dotted, chain, staticChain, noHead]
  simp [own]

end Scope

/-- The names that types are known by. Every type declaration writes one name behind its keyword, and the name of
its region is that name if and only if it is ASCII. Then the search for the name finds the first declaration with a
body that writes it; if not, it does not find that one. A base list of the type around a place, or of a base that is
followed from it, leads to the first declaration of a name of ASCII that it writes, and all that this can pass on is
inherited, unless eight other bases are found. And in the body of a type whose name is ASCII that name in front of a
dot lists the statics of the type, if the catalog has no type for it. -/
theorem types_known_by_identifier (text : List Char) :
    (∀ p ∈ typeDeclarations text, ∃ keyword name, Declares p keyword name ∧
      (∀ otherKeyword other, Declares p otherKeyword other → other = name) ∧
      ∀ stop r, TypeRegion.at? stop p = some r → (r.name = String.ofList name ↔ IsAscii name)) ∧
    (∀ p ∈ typeDeclarations text, ∀ keyword name, Declares p keyword name →
      (TypeRegion.at? (utf8Length text) p).isSome = true →
        ∃ r, FirstWriting text name r ∧ (typeNamed text (String.ofList name) = some r ↔ IsAscii name)) ∧
    (∀ name r, FirstWriting text name r → IsAscii name → ∀ heir child written,
      child = heir ∨ child ∈ inheritedRegions text heir → written ∈ child.bases →
      simpleBaseName written = String.ofList name → heir.name ≠ String.ofList name →
        PassesOn text r heir ∨ (inheritedRegions text heir).length = 8) ∧
    ∀ (s : Scope) source caret r, s.context = Context.of source caret → s.context.text = text →
      s.context.region = some r →
      ∃ p ∈ typeDeclarations text, ∃ keyword name, Declares p keyword name ∧ r.start = p.offset ∧
        (s.context.typeName? = some (String.ofList name) ↔ IsAscii name) ∧
        (IsAscii name → s.resolve? (String.ofList name) = none → ∀ target : Target, target.hasDot = true →
          target.chain = String.ofList name →
            (s.staticStage target).items.map (·.displayText) =
              keepFirst (Declarations.ofType text r).staticNames) := by
  refine ⟨fun p declared => ?_, fun p declared keyword name declares hasBody => ?_,
    fun name r first ascii heir child written reached listed simple apart => ?_,
    fun s source caret r isContext isText region => ?_⟩
  · obtain ⟨keyword, name, declares⟩ := exists_declares declared
    exact ⟨keyword, name, declares, fun _ _ again => declares.name_eq again, fun _ _ => declares.name_eq_iff⟩
  · obtain ⟨r, first⟩ := exists_firstWriting declared declares hasBody
    exact ⟨r, first, first.typeNamed_eq_iff⟩
  · exact (first.mem_inheritedRegions ascii reached listed simple apart).imp_left passesOn_of_mem_inheritedRegions
  · subst isText
    have found : enclosingType s.context.text s.context.caret = some r := by
      rw [← region, isContext]
      rfl
    obtain ⟨p, declared, keyword, name, declares, start, named⟩ := exists_declares_of_enclosingType found
    have known : s.context.typeName? = some (String.ofList name) ↔ IsAscii name := by
      rw [Context.typeName?, region, Option.map_some, Option.some.injEq, named]
    refine ⟨p, declared, keyword, name, declares, start, known, fun ascii noType target dotted chain => ?_⟩
    have own : s.context.declarations = Declarations.ofType s.context.text r := by
      have asMade : s.context.declarations = (s.context.region.map (Declarations.ofType s.context.text)).getD {} := by
        rw [isContext]
        rfl
      rw [asMade, region, Option.map_some, Option.getD_some]
    have nonempty : name ≠ [] := by
      obtain ⟨c, first, -⟩ := declares.begins
      rintro rfl
      simp at first
    have segments := segmentsOf_identifier nonempty declares.identifier ascii
    rw [Scope.staticStage_own (known.mpr ascii) noType dotted (by rw [chain, String.toList_ofList, segments]),
      Scope.displayTexts_ownStatics, own]

/-- A type with a static field, and a type that is derived from it. -/
def derivedText (name : List Char) : List Char :=
  "class ".toList ++ name ++ "\x7bpublic static int n;\x7dclass B:".toList ++ name ++ "\x7b".toList

/-- The region of the derived type, whose keyword stands at an offset. -/
def derivedHeir (name : List Char) (start : Nat) : TypeRegion :=
  let size := utf8Length (derivedText name)
  { start, bodyStart := size, stop := size, name := "B", bases := [String.ofList name], isStatic := false }

/-- The caret behind the field of the first type. -/
def derivedScope (name : List Char) : Scope :=
  { catalog := ⟨{}, []⟩, context := Context.of (derivedText name) 28, nonPublic := false }

/-- The place of the first type. -/
def derivedPlace (name : List Char) : Place := placeBetween [] (derivedText name)

theorem declares_derivedPlace {name : List Char} (listed : name ∈ [['A'], ['Ä']]) :
    derivedPlace name ∈ typeDeclarations (derivedText name) ∧ Declares (derivedPlace name) "class".toList name := by
  have reads : ∀ name ∈ [['A'], ['Ä']], (derivedPlace name).hasWord "class".toList = true ∧
      (textBehind "class".toList (derivedPlace name)).head?.any isAsciiBlank = true ∧
      (trimStart (textBehind "class".toList (derivedPlace name))).head?.any
        (fun c => isIdentifierChar c && !c.isDigit) = true ∧
      (trimStart (textBehind "class".toList (derivedPlace name))).takeWhile isIdentifierChar = name := by
    decide +kernel
  obtain ⟨stands, blank, first, written⟩ := reads name listed
  have has : HasKeyword (derivedPlace name) "class".toList := ⟨by decide, stands, nofun⟩
  refine ⟨(mem_typeDeclarations_iff (placeBetween_mem_places [] _ _) has).mpr ⟨blank, first⟩, ?_⟩
  have declares := has.declares ⟨blank, first⟩
  rwa [written] at declares

theorem types_known_by_identifier_derived :
    IsAscii ['A'] ∧ (∃ r, typeNamed (derivedText ['A']) "A" = some r ∧
      enclosingType (derivedText ['A']) 39 = some (derivedHeir ['A'] 29) ∧
      PassesOn (derivedText ['A']) r (derivedHeir ['A'] 29)) ∧
      ((derivedScope ['A']).staticStage ⟨"A.", "A", ""⟩).items.map (·.displayText) = ["n"] := by
  have ascii : IsAscii ['A'] := by decide
  obtain ⟨declared, declares⟩ := declares_derivedPlace (List.mem_cons_self : ['A'] ∈ [['A'], ['Ä']])
  obtain ⟨-, searches, inherits, statics⟩ := types_known_by_identifier (derivedText ['A'])
  obtain ⟨r, first, found⟩ := searches _ declared _ _ declares (by decide +kernel)
  have ended : ((BaseSearch.turn (derivedText ['A']))^[1] (.start (derivedHeir ['A'] 29))).HasEnded :=
    .inr (by decide +kernel)
  have one : (inheritedRegions (derivedText ['A']) (derivedHeir ['A'] 29)).length = 1 := by
    rw [← BaseSearch.found_of_hasEnded ended]
    decide +kernel
  refine ⟨ascii, ⟨r, found.mpr ascii, by decide +kernel, ?_⟩, ?_⟩
  · refine (inherits _ _ first ascii _ _ "A" (.inl rfl) (by decide) (by decide) (by decide)).resolve_right ?_
    rw [one]
    decide
  · have region : (derivedScope ['A']).context.region = some ⟨0, 8, 28, "A", [], false⟩ := by decide +kernel
    have text : (derivedScope ['A']).context.text = derivedText ['A'] := by decide +kernel
    obtain ⟨p, inText, keyword, name, written, start, -, lists⟩ :=
      statics (derivedScope ['A']) (derivedText ['A']) 28 _ rfl text region
    obtain rfl : derivedPlace ['A'] = p :=
      eq_of_offset_eq (List.mem_filter.mp declared).1 (List.mem_filter.mp inText).1 start
    obtain rfl := declares.name_eq written
    rw [lists ascii (by decide +kernel) ⟨"A.", "A", ""⟩ (by decide) rfl]
    decide +kernel

/-- A type with an umlaut for its name is not known by it: it is not found, nothing is inherited from it, and in its
own body the name in front of a dot lists nothing. -/
theorem umlaut_not_known :
    Declares (derivedPlace ['Ä']) "class".toList ['Ä'] ∧
      (TypeRegion.at? 43 (derivedPlace ['Ä'])).map (·.name) = some "Ã\u0084" ∧
      typeNamed (derivedText ['Ä']) "Ä" = none ∧
      enclosingType (derivedText ['Ä']) 41 = some (derivedHeir ['Ä'] 30) ∧
      inheritedRegions (derivedText ['Ä']) (derivedHeir ['Ä'] 30) = [] ∧
      (derivedScope ['Ä']).context.declarations.staticNames = ["n"] ∧
      (derivedScope ['Ä']).staticStage ⟨"Ä.", "Ä", ""⟩ = .notApplicable := by
  have ended : ((BaseSearch.turn (derivedText ['Ä']))^[1] (.start (derivedHeir ['Ä'] 30))).HasEnded :=
    .inr (by decide +kernel)
  refine ⟨(declares_derivedPlace (by decide)).2, by decide +kernel, by decide +kernel, by decide +kernel, ?_,
    by decide +kernel, by decide +kernel⟩
  rw [← BaseSearch.found_of_hasEnded ended]
  decide +kernel

end Typeahead.Lookup
