import Typeahead.Proofs.Markup.TagName
import Typeahead.Proofs.Markup.TypedText
import Typeahead.Proofs.Text.LastOccurrence

namespace Typeahead.Markup

open Text

/-- The blanks between the parts of a tag. -/
structure Gap where
  text : List Char
  nonempty : text ≠ []
  blank : ∀ c ∈ text, isAsciiBlank c = true

def Gap.space : Gap := ⟨[' '], by simp, List.all_eq_true.mp rfl⟩

/-- An attribute with its value in quotes, and the blanks before it. -/
structure Attribute where
  gap : Gap
  name : Name
  value : List Char
  unquoted : '"' ∉ value

def Attribute.text (a : Attribute) : List Char :=
  a.gap.text ++ (a.name.text ++ ('=' :: '"' :: (a.value ++ ['"'])))

def attributesText (attributes : List Attribute) : List Char := attributes.flatMap Attribute.text

section Quotes

/-- An open tag does not begin a comment. -/
theorem not_inComment_append {before rest : List Char} (outside : opensLast "<!--".toList "-->".toList before = false)
    (absent : '<' ∉ rest) (other : rest.head? ≠ some '!') :
    opensLast "<!--".toList "-->".toList (before ++ '<' :: rest) = false := by
  have apart : ¬ "!--".toList <+: rest := by
    rintro ⟨behind, rfl⟩
    exact other rfl
  have opening : lastOffset "<!--".toList (before ++ '<' :: rest) = lastOffset "<!--".toList before := by
    have once : '<' ∉ "!--".toList := by decide
    have same := splitLast_append_cons once absent apart before
    unfold lastOffset
    rw [show "<!--".toList = '<' :: "!--".toList from rfl, same, Option.map_map]
    rfl
  unfold opensLast at outside ⊢
  rw [opening]
  cases opened : lastOffset "<!--".toList before with
  | none => rfl
  | some o =>
    rw [opened] at outside
    cases closed : lastOffset "-->".toList before with
    | none => simp only [closed, Bool.true_eq_false] at outside
    | some c =>
      obtain ⟨later, found, atLeast⟩ := lastOffset_append_le closed ('<' :: rest)
      simp only [closed, decide_eq_false_iff_not, Nat.not_lt] at outside
      simp only [found, decide_eq_false_iff_not, Nat.not_lt]
      omega

theorem endsInQuotes_append (a b : List Char) : endsInQuotes (a ++ b) = (endsInQuotes a ^^ endsInQuotes b) := by
  unfold endsInQuotes
  rw [List.filter_append, List.length_append]
  rcases Nat.mod_two_eq_zero_or_one (a.filter (· == '"')).length with first | first <;>
    rcases Nat.mod_two_eq_zero_or_one (b.filter (· == '"')).length with second | second <;>
    simp [Nat.add_mod, first, second]

theorem endsInQuotes_of_not_mem {text : List Char} (absent : '"' ∉ text) : endsInQuotes text = false := by
  have none : text.filter (· == '"') = [] := by
    rw [List.filter_eq_nil_iff]
    intro c member quote
    exact absent (beq_iff_eq.mp quote ▸ member)
  simp [endsInQuotes, none]

theorem endsInQuotes_quote (text : List Char) : endsInQuotes ('"' :: text) = !endsInQuotes text := by
  rw [← List.singleton_append, endsInQuotes_append, show endsInQuotes ['"'] = true from rfl, Bool.true_xor]

theorem Gap.not_mem (gap : Gap) (mark : Char) (plain : isAsciiBlank mark = false) : mark ∉ gap.text := by
  intro member
  rw [gap.blank mark member] at plain
  exact Bool.noConfusion plain

theorem Name.not_mem (name : Name) (mark : Char) (plain : isNameChar mark = false) : mark ∉ name.text :=
  not_mem_of_named name.named plain

/-- Nothing but the value of an attribute can hold an angle bracket. -/
theorem Attribute.mem_text_iff {a : Attribute} {mark : Char} (bracket : mark = '<' ∨ mark = '>') :
    mark ∈ a.text ↔ mark ∈ a.value := by
  have noBlank : mark ∉ a.gap.text := a.gap.not_mem mark (by rcases bracket with rfl | rfl <;> rfl)
  have noLetter : mark ∉ a.name.text := a.name.not_mem mark (by rcases bracket with rfl | rfl <;> rfl)
  have noSign : mark ≠ '=' ∧ mark ≠ '"' := by rcases bracket with rfl | rfl <;> decide
  simp [Attribute.text, noBlank, noLetter, noSign]

theorem mem_attributesText_iff {attributes : List Attribute} {mark : Char} (bracket : mark = '<' ∨ mark = '>') :
    mark ∈ attributesText attributes ↔ ∃ a ∈ attributes, mark ∈ a.value := by
  simp only [attributesText, List.mem_flatMap, Attribute.mem_text_iff bracket]

theorem Attribute.endsInQuotes_text (a : Attribute) : endsInQuotes a.text = false := by
  have gap := endsInQuotes_of_not_mem (a.gap.not_mem '"' rfl)
  have name := endsInQuotes_of_not_mem (a.name.not_mem '"' rfl)
  have value := endsInQuotes_of_not_mem a.unquoted
  have equals : endsInQuotes ('=' :: '"' :: (a.value ++ ['"'])) = false := by
    rw [← List.singleton_append, endsInQuotes_append, endsInQuotes_quote, endsInQuotes_append, value]
    rfl
  rw [Attribute.text, endsInQuotes_append, endsInQuotes_append, gap, name, equals]
  rfl

theorem endsInQuotes_attributesText (attributes : List Attribute) :
    endsInQuotes (attributesText attributes) = false := by
  induction attributes with
  | nil => rfl
  | cons a attributes ih =>
    rw [attributesText, List.flatMap_cons, endsInQuotes_append, a.endsInQuotes_text, Bool.false_xor]
    exact ih

/-- Behind a bracket in its value, an attribute has one quote more. -/
theorem Attribute.endsInQuotes_behind {a : Attribute} {x y : List Char} (split : a.text = x ++ '<' :: y) :
    endsInQuotes y = true := by
  obtain ⟨front, -, inNamed⟩ := eq_append_of_not_mem_left split (a.gap.not_mem '<' rfl)
  obtain ⟨front, -, inQuoted⟩ := eq_append_of_not_mem_left inNamed (a.name.not_mem '<' rfl)
  have inValue : ['=', '"'] ++ (a.value ++ ['"']) = front ++ '<' :: y := inQuoted
  obtain ⟨front, -, inValue⟩ := eq_append_of_not_mem_left inValue (by decide)
  obtain ⟨back, rfl, value⟩ := eq_append_of_not_mem_right inValue (by decide)
  have absent : '"' ∉ back := by
    intro member
    exact a.unquoted (by rw [value]; simp [member])
  rw [endsInQuotes_append, endsInQuotes_of_not_mem absent]
  rfl

theorem endsInQuotes_behind {attributes : List Attribute} {x y : List Char}
    (split : attributesText attributes = x ++ '<' :: y) : endsInQuotes y = true := by
  induction attributes generalizing x y with
  | nil => simp [attributesText] at split
  | cons a attributes ih =>
    have whole : a.text ++ attributesText attributes = x ++ '<' :: y := split
    rcases List.append_eq_append_iff.mp whole with ⟨front, -, inLater⟩ | ⟨back, first, second⟩
    · exact ih inLater
    · cases back with
      | nil => exact ih (x := []) (by simpa using second.symm)
      | cons c back =>
        obtain ⟨rfl, rfl⟩ := List.cons.inj second
        change endsInQuotes (back ++ attributesText attributes) = true
        rw [endsInQuotes_append, a.endsInQuotes_behind first, endsInQuotes_attributesText]
        rfl

end Quotes

section Reading

theorem Gap.isBlank (gap : Gap) {c : Char} (member : c ∈ gap.text) : Text.isBlank c = true :=
  isBlank_of_isAsciiBlank (gap.blank c member)

theorem utf8Size_of_isAsciiBlank {c : Char} (blank : isAsciiBlank c = true) : c.utf8Size = 1 := by
  simp only [isAsciiBlank, Bool.or_eq_true, beq_iff_eq] at blank
  rcases blank with (((rfl | rfl) | rfl) | rfl) | rfl <;> rfl

/-- The last word begins behind the last gap. -/
theorem lastWord_gap (front : List Char) (gap : Gap) {word : List Char} (unbroken : ∀ c ∈ word, isBlank c = false) :
    lastWord (front ++ (gap.text ++ word)) = .ok word := by
  obtain ⟨blanks, c, split⟩ := (List.eq_nil_or_concat gap.text).resolve_left gap.nonempty
  have member : c ∈ gap.text := by simp [split]
  have whole : front ++ (gap.text ++ word) = (front ++ blanks) ++ c :: word := by simp [split]
  rw [lastWord, whole, breakLast_append (gap.isBlank member) unbroken]
  simp only
  rw [afterFirstByte_cons, if_pos (utf8Size_of_isAsciiBlank (gap.blank c member))]

/-- The value that is open at the end of a tag. -/
theorem Target.ofValue_attribute (tag : String) (front : List Char) (gap : Gap) (name : Name) {typed : List Char}
    (unquoted : '"' ∉ typed) :
    Target.ofValue tag (front ++ (gap.text ++ (name.text ++ '=' :: '"' :: typed))) =
      .ok (.attributeValue tag name.string (String.ofList typed)) := by
  have whole : front ++ (gap.text ++ (name.text ++ '=' :: '"' :: typed)) =
      (front ++ (gap.text ++ name.text) ++ ['=']) ++ '"' :: typed := by simp
  have named : trimEnd (front ++ (gap.text ++ name.text)) = front ++ (gap.text ++ name.text) := by
    rw [← List.append_assoc]
    exact Name.trimEnd_append _ name
  have word : lastWord (front ++ (gap.text ++ name.text)) = .ok name.text :=
    lastWord_gap front gap fun c member => not_isBlank_of_isNameChar (name.named c member)
  have equals : (trimEnd (front ++ (gap.text ++ name.text) ++ ['='])).reverse =
      '=' :: (front ++ (gap.text ++ name.text)).reverse := by
    rw [trimEnd_concat _ rfl, List.reverse_concat]
  unfold Target.ofValue
  rw [whole, breakLast_mark unquoted]
  simp only [equals]
  rw [List.reverse_reverse, named, word]
  rfl

theorem attributeNamesFrom_gap {blanks : List Char} (blank : ∀ c ∈ blanks, isBlank c = true) (isValue : Bool)
    (rest : List Char) :
    attributeNamesFrom false isValue [] (blanks ++ rest) = attributeNamesFrom false isValue [] rest := by
  induction blanks with
  | nil => rfl
  | cons c blanks ih =>
    have here := blank c List.mem_cons_self
    have noQuote : c ≠ '"' := by rintro rfl; exact Bool.noConfusion here
    have noEquals : (c == '=') = false := by
      rw [beq_eq_false_iff_ne]; rintro rfl; exact Bool.noConfusion here
    rw [List.cons_append, attributeNamesFrom, if_neg noQuote, if_neg Bool.false_ne_true,
      if_neg (by simp [not_isNameChar_of_isBlank here]), if_pos List.isEmpty_nil, noEquals, Bool.or_false]
    exact ih fun x member => blank x (List.mem_cons_of_mem _ member)

theorem attributeNamesFrom_name {letters : List Char} (named : ∀ c ∈ letters, isNameChar c = true) (isValue : Bool)
    (read rest : List Char) :
    attributeNamesFrom false isValue read (letters ++ rest) =
      attributeNamesFrom false isValue (letters.reverse ++ read) rest := by
  induction letters generalizing read with
  | nil => rfl
  | cons c letters ih =>
    have here := named c List.mem_cons_self
    have noQuote : c ≠ '"' := by rintro rfl; exact Bool.noConfusion here
    rw [List.cons_append, attributeNamesFrom, if_neg noQuote, if_neg Bool.false_ne_true, if_pos here,
      ih fun x member => named x (List.mem_cons_of_mem _ member)]
    simp

theorem attributeNamesFrom_value {value : List Char} (unquoted : '"' ∉ value) (rest : List Char) :
    attributeNamesFrom true false [] (value ++ rest) = attributeNamesFrom true false [] rest := by
  induction value with
  | nil => rfl
  | cons c value ih =>
    have noQuote : c ≠ '"' := fun quote => unquoted (quote ▸ List.mem_cons_self)
    rw [List.cons_append, attributeNamesFrom, if_neg noQuote, if_pos rfl]
    exact ih fun member => unquoted (List.mem_cons_of_mem _ member)

theorem attributeNamesFrom_attribute (a : Attribute) (rest : List Char) :
    attributeNamesFrom false false [] (a.text ++ rest) =
      a.name.key :: attributeNamesFrom false false [] rest := by
  have nonempty : (a.name.text.reverse ++ []).isEmpty = false := by simp [a.name.nonempty]
  have equals : attributeNamesFrom false false (a.name.text.reverse ++ [])
      ('=' :: '"' :: (a.value ++ '"' :: rest)) =
        a.name.key :: attributeNamesFrom false true [] ('"' :: (a.value ++ '"' :: rest)) := by
    rw [attributeNamesFrom, if_neg (by decide), if_neg Bool.false_ne_true, if_neg (by decide), nonempty,
      if_neg Bool.false_ne_true, if_neg Bool.false_ne_true, List.append_nil, List.reverse_reverse]
    rfl
  have whole : a.text ++ rest = a.gap.text ++ (a.name.text ++ ('=' :: '"' :: (a.value ++ '"' :: rest))) := by
    simp [Attribute.text]
  rw [whole, attributeNamesFrom_gap fun c member => a.gap.isBlank member, attributeNamesFrom_name a.name.named,
    equals, attributeNamesFrom, if_pos rfl, Bool.not_false, attributeNamesFrom_value a.unquoted,
    attributeNamesFrom, if_pos rfl, Bool.not_true]

/-- The names of the attributes that are written out; the word at the end is not one yet. -/
theorem attributeNames_attributesText (attributes : List Attribute) (gap : Gap) {typed : List Char}
    (named : ∀ c ∈ typed, isNameChar c = true) :
    attributeNames (attributesText attributes ++ (gap.text ++ typed)) = attributes.map (·.name.key) := by
  unfold attributeNames
  induction attributes with
  | nil =>
    have word := attributeNamesFrom_name named false [] []
    rw [List.append_nil] at word
    rw [attributesText, List.flatMap_nil, List.nil_append,
      attributeNamesFrom_gap fun c member => gap.isBlank member, word]
    rfl
  | cons a attributes ih =>
    have whole : attributesText (a :: attributes) = a.text ++ attributesText attributes := rfl
    rw [whole, List.append_assoc, attributeNamesFrom_attribute, ih, List.map_cons]

theorem attributesText_ends (attributes : List Attribute) :
    attributesText attributes = [] ∨ ∃ front, attributesText attributes = front ++ ['"'] := by
  rcases List.eq_nil_or_concat attributes with rfl | ⟨earlier, a, rfl⟩
  · exact .inl rfl
  · refine .inr ⟨attributesText earlier ++ (a.gap.text ++ (a.name.text ++ ('=' :: '"' :: a.value))), ?_⟩
    simp [attributesText, Attribute.text]

/-- No equals sign is left without its value in front of the word at the end. -/
theorem getLast?_trimEnd_attributes (attributes : List Attribute) (gap : Gap) {typed : List Char}
    (named : ∀ c ∈ typed, isNameChar c = true) :
    (trimEnd (attributesText attributes ++ (gap.text ++ typed))).getLast? ≠ some '=' := by
  rcases List.eq_nil_or_concat typed with rfl | ⟨start, c, rfl⟩
  · have trimmed : trimEnd (attributesText attributes ++ (gap.text ++ [])) = trimEnd (attributesText attributes) := by
      rw [List.append_nil, trimEnd_append, if_pos (trimEnd_blanks fun c member => gap.isBlank member)]
    rw [trimmed]
    rcases attributesText_ends attributes with empty | ⟨front, ends⟩
    · simp [empty, trimEnd]
    · rw [ends, trimEnd_concat front rfl]
      simp
  · have letter : isNameChar c = true := named c (by simp)
    have whole : attributesText attributes ++ (gap.text ++ start.concat c) =
        (attributesText attributes ++ (gap.text ++ start)) ++ [c] := by simp
    rw [whole, trimEnd_concat _ (not_isBlank_of_isNameChar letter)]
    intro last
    obtain rfl : c = '=' := by simpa using last
    exact Bool.noConfusion letter

/-- The name that is being written at the end of a tag. -/
theorem Target.ofAttributes_attributes (tag : String) (attributes : List Attribute) (gap : Gap) {typed : List Char}
    (named : ∀ c ∈ typed, isNameChar c = true) :
    Target.ofAttributes tag (attributesText attributes ++ (gap.text ++ typed)) =
      .ok (.attributeName tag (String.ofList typed) (attributes.map (·.name.key))) := by
  have word : lastWord (attributesText attributes ++ (gap.text ++ typed)) = .ok typed :=
    lastWord_gap _ gap fun c member => not_isBlank_of_isNameChar (named c member)
  have noMark : typed.any (fun c => c == '=' || c == '"' || c == '\'') = false := by
    rw [List.any_eq_false]
    rintro c member mark
    have letter := named c member
    simp only [Bool.or_eq_true, beq_iff_eq] at mark
    rcases mark with (rfl | rfl) | rfl <;> exact Bool.noConfusion letter
  have ends : ((trimEnd (attributesText attributes ++ (gap.text ++ typed))).getLast? == some '=') = false :=
    beq_eq_false_iff_ne.mpr (getLast?_trimEnd_attributes attributes gap named)
  unfold Target.ofAttributes
  rw [word]
  simp only [bind, Except.bind, noMark, ends, Bool.or_false, Bool.false_eq_true, if_false,
    attributeNames_attributesText attributes gap named]
  rfl

/-- Behind its name a tag goes on with a blank. -/
theorem attributesText_gap (attributes : List Attribute) (gap : Gap) (rest : List Char) :
    ∃ c cs, attributesText attributes ++ (gap.text ++ rest) = c :: cs ∧ isBlank c = true := by
  have gapFirst (gap : Gap) (rest : List Char) : ∃ c cs, gap.text ++ rest = c :: cs ∧ isBlank c = true := by
    obtain ⟨c, cs, split⟩ := List.exists_cons_of_ne_nil gap.nonempty
    exact ⟨c, cs ++ rest, by simp [split], gap.isBlank (split ▸ List.mem_cons_self)⟩
  cases attributes with
  | nil => exact gapFirst gap rest
  | cons a attributes =>
    obtain ⟨c, cs, split, blank⟩ := gapFirst a.gap ((a.name.text ++ ('=' :: '"' :: (a.value ++ ['"']))) ++
      (attributesText attributes ++ (gap.text ++ rest)))
    exact ⟨c, cs, by simpa [attributesText, Attribute.text] using split, blank⟩

/-- The open tag at the end of a text, with blanks behind its name. -/
theorem Target.ofFragment_tag (tag : Name) {rest : List Char} {c : Char} {cs : List Char} (split : rest = c :: cs)
    (blank : isBlank c = true) (unclosed : endsInQuotes rest = true ∨ '>' ∉ rest) :
    Target.ofFragment (tag.text ++ rest) =
      if endsInQuotes rest then Target.ofValue tag.string rest else Target.ofAttributes tag.string rest := by
  have quotes : endsInQuotes (tag.text ++ rest) = endsInQuotes rest := by
    rw [endsInQuotes_append, endsInQuotes_of_not_mem (tag.not_mem '"' rfl), Bool.false_xor]
  have letters : ∀ x ∈ tag.text, (!isBlank x) = true := fun x member => by
    simp [not_isBlank_of_isNameChar (tag.named x member)]
  have name : (tag.text ++ rest).takeWhile (!isBlank ·) = tag.text := by
    rw [List.takeWhile_append_of_pos letters, split, List.takeWhile_cons_of_neg (by simp [blank]), List.append_nil]
  have behind : (tag.text ++ rest).dropWhile (!isBlank ·) = c :: cs := by
    rw [List.dropWhile_append_of_pos letters, split, List.dropWhile_cons_of_neg (by simp [blank])]
  have opened : Target.ofOpenTag (tag.text ++ rest) =
      if endsInQuotes rest then Target.ofValue tag.string rest else Target.ofAttributes tag.string rest := by
    unfold Target.ofOpenTag
    simp only [behind, name, quotes]
    rw [split]
    rfl
  have noContent : (!endsInQuotes (tag.text ++ rest) && (tag.text ++ rest).contains '>') = false := by
    rw [quotes]
    rcases unclosed with quoted | absent
    · rw [quoted]; rfl
    · have outside : '>' ∉ tag.text ++ rest := by simp [tag.not_mem '>' rfl, absent]
      rw [List.contains_eq_mem, decide_eq_false outside, Bool.and_false]
  obtain ⟨first, more, nameSplit, noDeclaration, noSlash⟩ := tag.exists_eq_cons
  rw [← opened]
  unfold Target.ofFragment
  rw [noContent, nameSplit]
  simp only [List.cons_append, Bool.false_eq_true, if_false, noDeclaration, noSlash]

theorem Target.of_append {before fragment : List Char} (outside : opensLast "<!--".toList "-->".toList before = false)
    (absent : '<' ∉ fragment) (other : fragment.head? ≠ some '!') :
    Target.of (before ++ '<' :: fragment) = Target.ofFragment fragment := by
  unfold Target.of
  rw [not_inComment_append outside absent other, breakLast_mark absent]
  rfl

end Reading

section Origin

theorem Target.ofValue_cases {tag : String} {attributes : List Char} {target : Target}
    (read : Target.ofValue tag attributes = .ok target) :
    target = .content ∨ ∃ attr typed, target = .attributeValue tag attr typed := by
  unfold Target.ofValue at read
  split at read
  · exact .inl (Except.ok.inj read).symm
  · split at read
    · obtain ⟨word, -, built⟩ := bind_eq_ok.mp read
      exact .inr ⟨_, _, (Except.ok.inj built).symm⟩
    · exact .inl (Except.ok.inj read).symm

theorem Target.ofAttributes_cases {tag : String} {attributes : List Char} {target : Target}
    (read : Target.ofAttributes tag attributes = .ok target) :
    target = .content ∨ ∃ typed present, target = .attributeName tag typed present := by
  obtain ⟨word, -, built⟩ := bind_eq_ok.mp read
  split at built
  · exact .inl (Except.ok.inj built).symm
  · exact .inr ⟨_, _, (Except.ok.inj built).symm⟩

/-- Attribute names are read outside quotes and attribute values inside them, and outside quotes no tag is
closed. -/
theorem Target.ofFragment_origin {fragment : List Char} {target : Target}
    (read : Target.ofFragment fragment = .ok target) :
    (∀ tag typed present, target = .attributeName tag typed present →
        endsInQuotes fragment = false ∧ '>' ∉ fragment) ∧
      ∀ tag attr typed, target = .attributeValue tag attr typed → endsInQuotes fragment = true := by
  unfold Target.ofFragment at read
  split at read
  · simp [← Except.ok.inj read]
  · next notContent =>
    split at read
    · simp [← Except.ok.inj read]
    · next first rest =>
      split at read
      · simp [← Except.ok.inj read]
      · split at read
        · simp [← Except.ok.inj read]
        · unfold Target.ofOpenTag at read
          simp only at read
          split at read
          · simp [← Except.ok.inj read]
          · split at read
            · next quoted =>
              rcases Target.ofValue_cases read with rfl | ⟨attr, typed, rfl⟩ <;> simp [quoted]
            · next outside =>
              have closed : '>' ∉ first :: rest := by
                simpa [outside] using notContent
              rcases Target.ofAttributes_cases read with rfl | ⟨typed, present, rfl⟩
              · simp
              · simpa [outside] using closed

/-- The same for a text whose last bracket that opens is known. -/
theorem Target.of_origin {earlier fragment : List Char} {target : Target} (absent : '<' ∉ fragment)
    (read : Target.of (earlier ++ '<' :: fragment) = .ok target) :
    (∀ tag typed present, target = .attributeName tag typed present →
        endsInQuotes fragment = false ∧ '>' ∉ fragment) ∧
      ∀ tag attr typed, target = .attributeValue tag attr typed → endsInQuotes fragment = true := by
  unfold Target.of at read
  rw [breakLast_mark absent] at read
  split at read
  · simp [← Except.ok.inj read]
  · exact Target.ofFragment_origin read

end Origin

section OpenTag

variable {before : List Char} {tag : Name} {attributes : List Attribute} {gap : Gap}

/-- An open tag up to the text that is being written behind its attributes. -/
def openTag (tag : Name) (attributes : List Attribute) (gap : Gap) (typed : List Char) : List Char :=
  '<' :: (tag.text ++ (attributesText attributes ++ (gap.text ++ typed)))

theorem Target.of_openTag (outside : opensLast "<!--".toList "-->".toList before = false) {typed : List Char}
    (absent : '<' ∉ attributesText attributes ++ (gap.text ++ typed))
    (unclosed : endsInQuotes (attributesText attributes ++ (gap.text ++ typed)) = true ∨
      '>' ∉ attributesText attributes ++ (gap.text ++ typed)) :
    Target.of (before ++ openTag tag attributes gap typed) =
      if endsInQuotes (attributesText attributes ++ (gap.text ++ typed)) then
        Target.ofValue tag.string (attributesText attributes ++ (gap.text ++ typed))
      else Target.ofAttributes tag.string (attributesText attributes ++ (gap.text ++ typed)) := by
  obtain ⟨c, cs, split, blank⟩ := attributesText_gap attributes gap typed
  obtain ⟨first, more, nameSplit, noDeclaration, -⟩ := tag.exists_eq_cons
  have inTag : '<' ∉ tag.text ++ (attributesText attributes ++ (gap.text ++ typed)) := by
    rw [List.mem_append]
    exact not_or.mpr ⟨tag.not_mem '<' rfl, absent⟩
  have noComment : (tag.text ++ (attributesText attributes ++ (gap.text ++ typed))).head? ≠ some '!' := by
    rw [nameSplit]
    intro same
    obtain rfl : first = '!' := Option.some.inj same
    exact Bool.noConfusion noDeclaration
  rw [openTag, Target.of_append outside inTag noComment, Target.ofFragment_tag tag split blank unclosed]

/-- The bracket that the tag is searched from when a value holds one: behind it, the text is odd in quotes
if the text behind the attributes is even, and even if that is odd. -/
theorem exists_bracket (before : List Char) (tag : Name) (gap : Gap) {typed : List Char}
    (here : '<' ∈ attributesText attributes) (noBracket : '<' ∉ typed) :
    ∃ earlier fragment, before ++ openTag tag attributes gap typed = earlier ++ '<' :: fragment ∧ '<' ∉ fragment ∧
      endsInQuotes fragment = !endsInQuotes typed := by
  obtain ⟨x, y, split, last⟩ := eq_append_last_of_mem here
  have inGap : '<' ∉ gap.text := gap.not_mem '<' rfl
  refine ⟨before ++ '<' :: (tag.text ++ x), y ++ (gap.text ++ typed), ?_, ?_, ?_⟩
  · simp [openTag, split]
  · simp [last, inGap, noBracket]
  · rw [endsInQuotes_append, endsInQuotes_behind split, endsInQuotes_append,
      endsInQuotes_of_not_mem (gap.not_mem '"' rfl), Bool.false_xor, Bool.true_xor]

theorem Target.of_openTag_name_iff (outside : opensLast "<!--".toList "-->".toList before = false)
    {typed : List Char} (named : ∀ c ∈ typed, isNameChar c = true) :
    Target.of (before ++ openTag tag attributes gap typed) =
        .ok (.attributeName tag.string (String.ofList typed) (attributes.map (·.name.key))) ↔
      ∀ a ∈ attributes, '<' ∉ a.value ∧ '>' ∉ a.value := by
  have noBracket : '<' ∉ typed := not_mem_of_named named rfl
  have unquoted : endsInQuotes typed = false := endsInQuotes_of_not_mem (not_mem_of_named named rfl)
  have even : endsInQuotes (attributesText attributes ++ (gap.text ++ typed)) = false := by
    rw [endsInQuotes_append, endsInQuotes_attributesText, endsInQuotes_append,
      endsInQuotes_of_not_mem (gap.not_mem '"' rfl), unquoted]
    rfl
  constructor
  · intro read
    have noOpening : '<' ∉ attributesText attributes := by
      intro here
      obtain ⟨earlier, fragment, split, absent, quotes⟩ := exists_bracket before tag gap here noBracket
      rw [split] at read
      have outsideQuotes := ((Target.of_origin absent read).1 _ _ _ rfl).1
      rw [quotes, unquoted] at outsideQuotes
      exact Bool.noConfusion outsideQuotes
    have noClosing : '>' ∉ attributesText attributes := by
      have inTag : '<' ∉ tag.text ++ (attributesText attributes ++ (gap.text ++ typed)) := by
        simp [tag.not_mem '<' rfl, noOpening, gap.not_mem '<' rfl, noBracket]
      have closed := ((Target.of_origin inTag read).1 _ _ _ rfl).2
      exact fun here => closed (by simp [here])
    intro a member
    exact ⟨fun here => noOpening ((mem_attributesText_iff (.inl rfl)).mpr ⟨a, member, here⟩),
      fun here => noClosing ((mem_attributesText_iff (.inr rfl)).mpr ⟨a, member, here⟩)⟩
  · intro plain
    have noMark {mark : Char} (bracket : mark = '<' ∨ mark = '>') :
        mark ∉ attributesText attributes ++ (gap.text ++ typed) := by
      have inValues : mark ∉ attributesText attributes := by
        rw [mem_attributesText_iff bracket]
        rintro ⟨a, member, here⟩
        rcases bracket with rfl | rfl
        · exact (plain a member).1 here
        · exact (plain a member).2 here
      have inGap : mark ∉ gap.text := gap.not_mem mark (by rcases bracket with rfl | rfl <;> rfl)
      have inName : mark ∉ typed := not_mem_of_named named (by rcases bracket with rfl | rfl <;> rfl)
      simp [inValues, inGap, inName]
    rw [Target.of_openTag outside (noMark (.inl rfl)) (.inr (noMark (.inr rfl))), even, if_neg Bool.false_ne_true]
    exact Target.ofAttributes_attributes tag.string attributes gap named

theorem Target.of_openTag_value_iff (outside : opensLast "<!--".toList "-->".toList before = false)
    {name : Name} {typed : List Char} (unquoted : '"' ∉ typed) :
    Target.of (before ++ openTag tag attributes gap (name.text ++ '=' :: '"' :: typed)) =
        .ok (.attributeValue tag.string name.string (String.ofList typed)) ↔
      '<' ∉ typed ∧ ∀ a ∈ attributes, '<' ∉ a.value := by
  have odd : endsInQuotes (name.text ++ '=' :: '"' :: typed) = true := by
    rw [endsInQuotes_append, endsInQuotes_of_not_mem (name.not_mem '"' rfl), ← List.singleton_append,
      endsInQuotes_append, endsInQuotes_quote, endsInQuotes_of_not_mem unquoted]
    rfl
  have whole : endsInQuotes (attributesText attributes ++ (gap.text ++ (name.text ++ '=' :: '"' :: typed))) = true := by
    rw [endsInQuotes_append, endsInQuotes_attributesText, endsInQuotes_append,
      endsInQuotes_of_not_mem (gap.not_mem '"' rfl), odd]
    rfl
  constructor
  · intro read
    have noTyped : '<' ∉ typed := by
      intro here
      obtain ⟨x, y, split, last⟩ := eq_append_last_of_mem here
      have atLast : before ++ openTag tag attributes gap (name.text ++ '=' :: '"' :: typed) =
          (before ++ openTag tag attributes gap (name.text ++ '=' :: '"' :: x)) ++ '<' :: y := by
        simp [openTag, split]
      rw [atLast] at read
      have inside := (Target.of_origin last read).2 _ _ _ rfl
      rw [endsInQuotes_of_not_mem fun quote => unquoted (by rw [split]; simp [quote])] at inside
      exact Bool.noConfusion inside
    refine ⟨noTyped, fun a member inValue => ?_⟩
    have here := (mem_attributesText_iff (.inl rfl)).mpr ⟨a, member, inValue⟩
    have noBracket : '<' ∉ name.text ++ '=' :: '"' :: typed := by simp [name.not_mem '<' rfl, noTyped]
    obtain ⟨earlier, fragment, split, absent, quotes⟩ := exists_bracket before tag gap here noBracket
    rw [split] at read
    have inside := (Target.of_origin absent read).2 _ _ _ rfl
    rw [quotes, odd] at inside
    exact Bool.noConfusion inside
  · rintro ⟨noTyped, plain⟩
    have absent : '<' ∉ attributesText attributes ++ (gap.text ++ (name.text ++ '=' :: '"' :: typed)) := by
      have inValues : '<' ∉ attributesText attributes := by
        rw [mem_attributesText_iff (.inl rfl)]
        rintro ⟨a, member, here⟩
        exact plain a member here
      simp [inValues, gap.not_mem '<' rfl, name.not_mem '<' rfl, noTyped]
    rw [Target.of_openTag outside absent (.inl whole), whole, if_pos rfl]
    exact Target.ofValue_attribute tag.string _ gap name unquoted

/-- In an open tag outside comments, the name that is being written is read with its tag and the names of the
attributes before it exactly when no value holds an angle bracket, and the value that is being written with its
tag and its attribute exactly when no value, the written one included, holds one that opens. -/
theorem Target.of_openTag_iff (tag : Name) (attributes : List Attribute) (gap : Gap)
    (outside : opensLast "<!--".toList "-->".toList before = false) :
    (∀ typed : List Char, (∀ c ∈ typed, isNameChar c = true) →
      (Target.of (before ++ openTag tag attributes gap typed) =
          .ok (.attributeName tag.string (String.ofList typed) (attributes.map (·.name.key))) ↔
        ∀ a ∈ attributes, '<' ∉ a.value ∧ '>' ∉ a.value)) ∧
      ∀ (name : Name) (typed : List Char), '"' ∉ typed →
        (Target.of (before ++ openTag tag attributes gap (name.text ++ '=' :: '"' :: typed)) =
            .ok (.attributeValue tag.string name.string (String.ofList typed)) ↔
          '<' ∉ typed ∧ ∀ a ∈ attributes, '<' ∉ a.value) :=
  ⟨fun _ named => Target.of_openTag_name_iff outside named,
    fun _ _ unquoted => Target.of_openTag_value_iff outside unquoted⟩

/-- Two attributes on two lines, the first with marks and blanks in its value, the second with an empty value. -/
def linkAttributes : List Attribute := [
  ⟨Gap.space, ⟨"href".toList, by simp, List.all_eq_true.mp (by decide +kernel)⟩, "x?a=1 & /b/".toList, by decide⟩,
  ⟨⟨['\n'], by simp, List.all_eq_true.mp rfl⟩,
    ⟨"Class".toList, by simp, List.all_eq_true.mp (by decide +kernel)⟩, [], by decide⟩]

def linkTag : Name := ⟨['a'], by simp, List.all_eq_true.mp (by decide +kernel)⟩

def titleName : Name := ⟨"title".toList, by simp, List.all_eq_true.mp (by decide +kernel)⟩

theorem Target.of_openTag_iff_link :
    opensLast "<!--".toList "-->".toList "<!-- a --> <p>".toList = false ∧
      (∀ c ∈ "ti".toList, isNameChar c = true) ∧ '"' ∉ "a > b".toList ∧
      Target.of ("<!-- a --> <p>".toList ++ openTag linkTag linkAttributes Gap.space "ti".toList) =
        .ok (.attributeName "a" "ti" ["href", "class"]) ∧
      Target.of ("<!-- a --> <p>".toList ++ openTag linkTag linkAttributes Gap.space "title=\"a > b".toList) =
        .ok (.attributeValue "a" "title" "a > b") := by
  have outside : opensLast "<!--".toList "-->".toList "<!-- a --> <p>".toList = false := by decide +kernel
  have named : ∀ c ∈ "ti".toList, isNameChar c = true := List.all_eq_true.mp (by decide +kernel)
  have unquoted : '"' ∉ "a > b".toList := by decide
  have plain : ∀ a ∈ linkAttributes, '<' ∉ a.value ∧ '>' ∉ a.value := by decide
  obtain ⟨names, values⟩ := Target.of_openTag_iff linkTag linkAttributes Gap.space outside
  exact ⟨outside, named, unquoted, (names _ named).mpr plain,
    (values titleName _ unquoted).mpr ⟨by decide, fun a member => (plain a member).1⟩⟩

/-- Behind a value with a bracket nothing is completed. -/
theorem Target.of_brackets_in_values :
    Target.of "<a title=\"x > y\" h".toList = .ok .content ∧
      Target.of "<a title=\"x < y\" h".toList = .ok .content := by
  decide +kernel

end OpenTag

end Typeahead.Markup
