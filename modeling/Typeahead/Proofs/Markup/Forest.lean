import Typeahead.Proofs.Markup.TagName
import Typeahead.Proofs.Markup.TagScan
import Typeahead.Proofs.Text.AsciiCase

namespace Typeahead.Markup

open Text

/-- A start tag: a name and what is written behind it. -/
structure StartTag where
  name : Name
  attributes : List Char
  apart : ∀ c ∈ attributes.head?, isNameChar c = false
  noOpening : '<' ∉ attributes
  noClosing : '>' ∉ attributes

namespace StartTag

def inner (tag : StartTag) : List Char := tag.name.text ++ tag.attributes

def text (tag : StartTag) : List Char := '<' :: (tag.inner ++ ['>'])

/-- The tag ends in a slash, up to blanks. -/
def IsSelfClosed (tag : StartTag) : Prop := (trimEnd tag.attributes).getLast? = some '/'

/-- The tag has no end tag in the markup of a dictionary. -/
def StandsAlone (d : Dictionary) (tag : StartTag) : Prop := d.isVoid tag.name.string = true ∨ tag.IsSelfClosed

instance (tag : StartTag) : Decidable tag.IsSelfClosed := inferInstanceAs (Decidable (_ = _))

instance (d : Dictionary) (tag : StartTag) : Decidable (tag.StandsAlone d) := inferInstanceAs (Decidable (_ ∨ _))

end StartTag

def endTag (name : Name) : List Char := '<' :: (('/' :: name.text) ++ ['>'])

/-- Properly nested markup. The end tag of an element may be written in another case. -/
inductive Forest (d : Dictionary) where
  | nil
  | content (text : List Char) (noOpening : '<' ∉ text) (noClosing : '>' ∉ text) (rest : Forest d)
  | alone (tag : StartTag) (alone : tag.StandsAlone d) (rest : Forest d)
  | element (tag : StartTag) (children : Forest d) (last : Name) (paired : ¬ tag.StandsAlone d)
    (same : last.key = tag.name.key) (rest : Forest d)

namespace Forest

variable {d : Dictionary}

def text : Forest d → List Char
  | nil => []
  | content text _ _ rest => text ++ rest.text
  | alone tag _ rest => tag.text ++ rest.text
  | element tag children last _ _ rest => tag.text ++ (children.text ++ (endTag last ++ rest.text))

/-- The elements around the place behind so many characters, the innermost first. An element is around the
places from the end of its start tag to the end of its end tag. -/
def around : Forest d → Nat → List String
  | nil, _ => []
  | content text _ _ rest, n => rest.around (n - text.length)
  | alone tag _ rest, n => rest.around (n - tag.text.length)
  | element tag children last _ _ rest, n =>
    if n < tag.text.length then []
    else if n < tag.text.length + (children.text.length + (endTag last).length) then
      children.around (n - tag.text.length) ++ [tag.name.key]
    else rest.around (n - (tag.text.length + (children.text.length + (endTag last).length)))

end Forest

section Tags

variable {d : Dictionary}

theorem lowerCase_ofList (cs : List Char) : lowerCase (String.ofList cs) = String.ofList (cs.map Char.toLower) := by
  rw [lowerCase, ← String.toList_inj, String.toList_map, String.toList_ofList, String.toList_ofList]

theorem Name.key_ne_empty (name : Name) : name.key ≠ "" := by
  intro empty
  have letters := congrArg String.toList empty
  rw [key, String.toList_ofList] at letters
  exact name.nonempty (List.map_eq_nil_iff.mp letters)

/-- The case of a name does not matter to the dictionary. -/
theorem Dictionary.isVoid_key (d : Dictionary) (name : Name) : d.isVoid name.key = d.isVoid name.string := by
  have lower : lowerCase name.key = lowerCase name.string := by
    rw [Name.key, Name.string, lowerCase_ofList, lowerCase_ofList, List.map_map]
    exact congrArg String.ofList (List.map_congr_left fun c _ => toLower_toLower c)
  unfold Dictionary.isVoid Dictionary.tag?
  rw [lower]

theorem StartTag.noClosing_inner (tag : StartTag) : '>' ∉ tag.inner := by
  have inName : '>' ∉ tag.name.text := not_mem_of_named tag.name.named rfl
  simp [inner, inName, tag.noClosing]

theorem noClosing_endTag (name : Name) : '>' ∉ '/' :: name.text := by
  have inName : '>' ∉ name.text := not_mem_of_named name.named rfl
  simp [inName]

/-- The name of a start tag ends where its attributes begin. -/
theorem StartTag.takeWhile_inner (tag : StartTag) : tag.inner.takeWhile isNameChar = tag.name.text := by
  have behind : tag.attributes.takeWhile isNameChar = [] := by
    cases split : tag.attributes with
    | nil => rfl
    | cons c cs => exact List.takeWhile_cons_of_neg (by simp [tag.apart c (by simp [split])])
  rw [inner, List.takeWhile_append_of_pos tag.name.named, behind, List.append_nil]

/-- A slash at the end of a tag is one at the end of its attributes. -/
theorem StartTag.getLast?_trimEnd_inner (tag : StartTag) :
    (trimEnd tag.inner).getLast? = some '/' ↔ tag.IsSelfClosed := by
  rw [inner, trimEnd_append, IsSelfClosed]
  by_cases blank : trimEnd tag.attributes = []
  · obtain ⟨start, c, split, named⟩ := tag.name.exists_eq_concat
    have whole : trimEnd tag.name.text = tag.name.text := Name.trimEnd_append [] tag.name
    have letter : c ≠ '/' := by rintro rfl; exact Bool.noConfusion named
    rw [if_pos blank, whole, split, blank]
    simp [letter]
  · obtain ⟨start, c, ends⟩ := (List.eq_nil_or_concat (trimEnd tag.attributes)).resolve_left blank
    rw [if_neg blank, ends]
    simp

/-- A start tag opens its element unless it stands alone. -/
theorem afterTag_inner (opened : List String) (tag : StartTag) :
    d.afterTag opened tag.inner = if tag.StandsAlone d then opened else tag.name.key :: opened := by
  obtain ⟨c, cs, split, noDeclaration, noSlash⟩ := tag.name.exists_eq_cons
  have whole : tag.inner = c :: (cs ++ tag.attributes) := by rw [StartTag.inner, split, List.cons_append]
  have stops : (tag.name.key = "" || (trimEnd tag.inner).getLast? == some '/' || d.isVoid tag.name.key) = true ↔
      tag.StandsAlone d := by
    simp only [Bool.or_eq_true, decide_eq_true_eq, beq_iff_eq, tag.name.key_ne_empty, false_or,
      tag.getLast?_trimEnd_inner, d.isVoid_key, StartTag.StandsAlone]
    exact or_comm
  have read : d.afterTag opened (c :: (cs ++ tag.attributes)) =
      if (tag.name.key = "" || (trimEnd tag.inner).getLast? == some '/' || d.isVoid tag.name.key) = true then opened
      else tag.name.key :: opened := by
    rw [Dictionary.afterTag]
    simp only [noDeclaration, noSlash, ← whole, tag.takeWhile_inner, Bool.false_eq_true, if_false]
    rfl
  rw [whole, read]
  simp only [stops]

/-- The end tag of the innermost element closes it. -/
theorem afterTag_endTag (opened : List String) {name last : Name} (same : last.key = name.key) :
    d.afterTag (name.key :: opened) ('/' :: last.text) = opened := by
  obtain ⟨c, cs, split, -, -⟩ := last.exists_eq_cons
  have letter : isBlank c = false := not_isBlank_of_isNameChar (last.named c (by simp [split]))
  have start : trimStart last.text = last.text := by
    rw [split, trimStart, List.dropWhile_cons_of_neg (by simp [letter])]
  have whole : trim last.text = last.text := by
    rw [trim, start]
    exact Name.trimEnd_append [] last
  have noDeclaration : isDeclarationStart '/' = false := rfl
  have key : String.ofList (last.text.map Char.toLower) = name.key := same
  rw [Dictionary.afterTag]
  simp [noDeclaration, whole, key]

theorem tagTexts_text (tag : StartTag) (rest : List Char) :
    tagTexts (tag.text ++ rest) = tag.inner :: tagTexts rest := by
  have whole : tag.text ++ rest = '<' :: (tag.inner ++ '>' :: rest) := by simp [StartTag.text]
  rw [whole, tagTexts_tag tag.noClosing_inner]

theorem tagTexts_endTag (last : Name) (rest : List Char) :
    tagTexts (endTag last ++ rest) = ('/' :: last.text) :: tagTexts rest := by
  have whole : endTag last ++ rest = '<' :: (('/' :: last.text) ++ '>' :: rest) := by simp [endTag]
  rw [whole, tagTexts_tag (noClosing_endTag last)]

/-- A tag that is cut off before its end opens and closes nothing. -/
theorem foldl_take_tag {inner : List Char} (noClosing : '>' ∉ inner) {n : Nat}
    (within : n < ('<' :: (inner ++ ['>'])).length) (opened : List String) :
    (tagTexts (('<' :: (inner ++ ['>'])).take n)).foldl d.afterTag opened = opened := by
  cases n with
  | zero => rfl
  | succ n =>
    have inside : n ≤ inner.length := by
      simp only [List.length_cons, List.length_append, List.length_nil] at within
      omega
    rw [List.take_succ_cons, List.take_append_of_le_length inside,
      tagTexts_incomplete fun member => noClosing (List.mem_of_mem_take member)]
    rfl

end Tags

namespace Forest

variable {d : Dictionary}

/-- Behind a forest the open elements are what they were before it. -/
theorem foldl_text (f : Forest d) (opened : List String) (rest : List Char) :
    (tagTexts (f.text ++ rest)).foldl d.afterTag opened = (tagTexts rest).foldl d.afterTag opened := by
  induction f generalizing opened rest with
  | nil => rfl
  | content text noOpening _ more ih => rw [Forest.text, List.append_assoc, tagTexts_plain noOpening, ih]
  | alone tag alone more ih =>
    rw [Forest.text, List.append_assoc, tagTexts_text, List.foldl_cons, afterTag_inner, if_pos alone, ih]
  | element tag children last paired same more inside behind =>
    simp only [Forest.text, List.append_assoc]
    rw [tagTexts_text, List.foldl_cons, afterTag_inner, if_neg paired, inside, tagTexts_endTag, List.foldl_cons,
      afterTag_endTag opened same, behind]

/-- No element is around the end of a forest. -/
theorem around_of_length_le (f : Forest d) {n : Nat} (behind : f.text.length ≤ n) : f.around n = [] := by
  induction f generalizing n with
  | nil => rfl
  | content text _ _ more ih =>
    rw [Forest.text, List.length_append] at behind
    exact ih (by omega)
  | alone tag _ more ih =>
    rw [Forest.text, List.length_append] at behind
    exact ih (by omega)
  | element tag children last _ _ more _ ih =>
    simp only [Forest.text, List.length_append] at behind
    rw [Forest.around, if_neg (by omega), if_neg (by omega)]
    exact ih (by omega)

/-- Inside a forest the elements around the place are open too. -/
theorem foldl_take (f : Forest d) (opened : List String) (n : Nat) :
    (tagTexts (f.text.take n)).foldl d.afterTag opened = f.around n ++ opened := by
  induction f generalizing opened n with
  | nil => rw [Forest.text, List.take_nil]; rfl
  | content text noOpening _ more ih =>
    have plain : '<' ∉ text.take n := fun member => noOpening (List.mem_of_mem_take member)
    rw [Forest.text, List.take_append, tagTexts_plain plain, ih]
    rfl
  | alone tag alone more ih =>
    rw [Forest.text, Forest.around, ← ih opened]
    by_cases within : n < tag.text.length
    · have nothing : n - tag.text.length = 0 := by omega
      rw [List.take_append_of_le_length within.le, nothing, List.take_zero]
      exact foldl_take_tag tag.noClosing_inner within opened
    · have whole : tag.text.take n = tag.text := List.take_of_length_le (by omega)
      rw [List.take_append, whole, tagTexts_text, List.foldl_cons, afterTag_inner, if_pos alone]
  | element tag children last paired same more inside behind =>
    rw [Forest.text, Forest.around]
    by_cases inStart : n < tag.text.length
    · rw [if_pos inStart, List.take_append_of_le_length inStart.le]
      exact foldl_take_tag tag.noClosing_inner inStart opened
    · have start : tag.text.take n = tag.text := List.take_of_length_le (by omega)
      rw [if_neg inStart, List.take_append, start, tagTexts_text, List.foldl_cons, afterTag_inner, if_neg paired]
      by_cases inElement : n < tag.text.length + (children.text.length + (endTag last).length)
      · rw [if_pos inElement, List.append_assoc]
        by_cases inChildren : n - tag.text.length ≤ children.text.length
        · rw [List.take_append_of_le_length inChildren]
          exact inside (tag.name.key :: opened) _
        · have whole : children.text.take (n - tag.text.length) = children.text := List.take_of_length_le (by omega)
          have inEnd : n - tag.text.length - children.text.length < (endTag last).length := by omega
          rw [List.take_append, whole, children.foldl_text, List.take_append_of_le_length inEnd.le,
            children.around_of_length_le (by omega)]
          exact foldl_take_tag (noClosing_endTag last) inEnd (tag.name.key :: opened)
      · have whole : children.text.take (n - tag.text.length) = children.text := List.take_of_length_le (by omega)
        have ended : (endTag last).take (n - tag.text.length - children.text.length) = endTag last :=
          List.take_of_length_le (by omega)
        have left : n - tag.text.length - children.text.length - (endTag last).length =
            n - (tag.text.length + (children.text.length + (endTag last).length)) := by omega
        rw [if_neg inElement, List.take_append, whole, children.foldl_text, List.take_append, ended, tagTexts_endTag,
          List.foldl_cons, afterTag_endTag opened same, behind, left]

theorem not_isVoid_of_mem_around (f : Forest d) {n : Nat} {name : String} (member : name ∈ f.around n) :
    d.isVoid name = false := by
  induction f generalizing n with
  | nil => simp [Forest.around] at member
  | content _ _ _ more ih => exact ih member
  | alone _ _ more ih => exact ih member
  | element tag children last paired _ more inside behind =>
    rw [Forest.around] at member
    split at member
    · simp at member
    · split at member
      · rcases List.mem_append.mp member with inChildren | itself
        · exact inside inChildren
        · obtain rfl := List.mem_singleton.mp itself
          rw [d.isVoid_key]
          exact Bool.eq_false_iff.mpr fun void => paired (.inl void)
      · exact behind member

end Forest

/-- Behind any text whose tags are complete, a forest leaves the open elements as they are, whatever follows;
at a place inside it the elements around that place are open too, the innermost first, and no void element is
among them. -/
theorem Dictionary.openElements_forest (d : Dictionary) (f : Forest d) {p : List Char} (complete : TagsComplete p) :
    (∀ q, d.openElements (p ++ (f.text ++ q)) = d.openElements (p ++ q)) ∧
      ∀ n, d.openElements (p ++ f.text.take n) = f.around n ++ d.openElements p ∧
        ∀ name ∈ f.around n, d.isVoid name = false := by
  refine ⟨fun q => ?_, fun n => ⟨?_, fun name member => f.not_isVoid_of_mem_around member⟩⟩
  · rw [d.openElements_append complete, d.openElements_append complete, f.foldl_text]
  · rw [d.openElements_append complete, f.foldl_take]

namespace Forest

def listTag : StartTag where
  name := ⟨"UL".toList, by simp, List.all_eq_true.mp (by decide +kernel)⟩
  attributes := " class=\"a/b\"".toList
  apart := by rintro c ⟨⟩; decide +kernel
  noOpening := by decide
  noClosing := by decide

def breakTag : StartTag where
  name := ⟨"Br".toList, by simp, List.all_eq_true.mp (by decide +kernel)⟩
  attributes := []
  apart := by simp
  noOpening := by decide
  noClosing := by decide

def itemTag : StartTag where
  name := ⟨"li".toList, by simp, List.all_eq_true.mp (by decide +kernel)⟩
  attributes := " id=x".toList
  apart := by rintro c ⟨⟩; decide +kernel
  noOpening := by decide
  noClosing := by decide

def closedTag : StartTag where
  name := ⟨"ul".toList, by simp, List.all_eq_true.mp (by decide +kernel)⟩
  attributes := " / ".toList
  apart := by rintro c ⟨⟩; decide +kernel
  noOpening := by decide
  noClosing := by decide

/-- `<UL class="a/b"><Br><li id=x>one<ul / ></li></ul>` -/
def listForest : Forest (.of .html5) :=
  .element listTag
    (.alone breakTag (by decide +kernel)
      (.element itemTag (.content "one".toList (by decide) (by decide) (.alone closedTag (by decide +kernel) .nil))
        itemTag.name (by decide +kernel) rfl .nil))
    closedTag.name (by decide +kernel) rfl .nil

end Forest

theorem Dictionary.openElements_forest_list :
    let d := Dictionary.of .html5
    TagsComplete "<p>".toList ∧
      d.openElements ("<p>".toList ++ ("<UL class=\"a/b\"><Br><li id=x>one<ul / ></li></ul>".toList ++ "</p".toList)) =
        d.openElements ("<p>".toList ++ "</p".toList) ∧
      d.openElements ("<p>".toList ++ "<UL class=\"a/b\"><Br><li id=x>one<ul / ></l".toList) =
        ["li", "ul"] ++ d.openElements "<p>".toList := by
  intro d
  have complete : TagsComplete "<p>".toList := tagsComplete_of_getLast rfl
  obtain ⟨neutral, around⟩ := d.openElements_forest Forest.listForest complete
  exact ⟨complete, neutral _, (around 42).1⟩

/-- With a blank behind the slash that ends its last value, a start tag counts as one that stands alone, and its
end tag closes the element around it. -/
theorem Dictionary.openElements_of_slash :
    let d := Dictionary.of .html5
    " href=/x/ ".toList.getLast? = some ' ' ∧
      d.openElements ("<a>".toList ++ "<a href=/x/ ></a>".toList) = [] ∧ d.openElements "<a>".toList = ["a"] := by
  decide +kernel

end Typeahead.Markup
