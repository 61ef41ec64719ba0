import Typeahead.Lookup.Item
import Typeahead.Text.BaseLetter
import Typeahead.Text.Blank
import Typeahead.Text.CaseFold
import Typeahead.Text.Cluster

namespace Typeahead.Lookup

open Text

inductive AtomKind where
  /-- The characters in their order, with anything between them. -/
  | subsequence
  | substring
  /-- At the start of the name. -/
  | start
  /-- At the end of the name. -/
  | finish
  | exact
  deriving DecidableEq, Repr

/-- An atom looks for its characters one after the other with anything between them, or for one run of them, anywhere or
at an end of the name. A negated atom holds where nothing is found. -/
structure Atom where
  kind : AtomKind
  /-- What to look for, in folded case. -/
  needle : List Char
  isNegative : Bool := false
  /-- Letters of the name are compared by their base letters. -/
  comparesBase : Bool := true
  /-- The needle was written in ASCII. -/
  isAscii : Bool := true
  deriving DecidableEq, Repr

/-- The atoms of a pattern: the parts between spaces that no backslash stands in front of. -/
def atomTexts (escaped : Bool) : List Char → List (List Char)
  | [] => [[]]
  | c :: cs =>
    if c = ' ' ∧ !escaped then [] :: atomTexts escaped cs
    else
      match atomTexts (c = '\\') cs with
      | [] => [[c]]
      | first :: more => (c :: first) :: more

/-- The text with every escaped space as a plain one. -/
def unescapeSpaces : List Char → List Char
  | [] => []
  | '\\' :: ' ' :: cs => ' ' :: unescapeSpaces cs
  | c :: cs => c :: unescapeSpaces cs

/-- A leading `!` negates, and `\!` is the character itself. -/
def readNegation : List Char → Bool × List Char
  | '!' :: cs => (true, cs)
  | '\\' :: '!' :: cs => (false, '!' :: cs)
  | cs => (false, cs)

/-- A leading `^` asks for the start and `'` for a run of characters; after a backslash they are plain. -/
def readKind : List Char → AtomKind × List Char
  | '^' :: cs => (.start, cs)
  | '\'' :: cs => (.substring, cs)
  | '\\' :: '^' :: cs => (.subsequence, '^' :: cs)
  | '\\' :: '\'' :: cs => (.subsequence, '\'' :: cs)
  | cs => (.subsequence, cs)

/-- A trailing `$` asks for the end, of the whole name when the kind is more than a subsequence; after a
backslash it is plain. The result holds the characters to look for without it, and whether a plain one
follows them. -/
def readEnd (kind : AtomKind) (cs : List Char) : AtomKind × List Char × Bool :=
  match cs.reverse with
  | '$' :: '\\' :: before => (kind, before.reverse, true)
  | '$' :: before => (if kind = .subsequence then .finish else .exact, before.reverse, false)
  | _ => (kind, cs, false)

def isAsciiText (cs : List Char) : Bool := cs.all (·.toNat < 128)

/-- Reads a text beyond ASCII: a backslash stays before an escaped space, and is doubled before any other
character. -/
def foldEscaped (escaped : Bool) : List Char → List Char
  | [] => []
  | c :: cs =>
    if escaped ∧ c = ' ' then ' ' :: foldEscaped false cs
    else if escaped then '\\' :: foldCase c :: foldEscaped (c = '\\') cs
    else foldCase c :: foldEscaped (c = '\\') cs

/-- The characters to look for. -/
def readNeedle (text : List Char) : List Char :=
  if isAsciiText text then (unescapeSpaces text).map foldCase else foldEscaped false (clusterHeads text)

/-- A negated atom never asks for a mere subsequence. -/
def Atom.parse (text : List Char) : Atom :=
  let (isNegative, text) := readNegation text
  let (kind, text) := readKind text
  let (kind, text, dollar) := readEnd kind text
  let needle := readNeedle text
  { kind := if isNegative ∧ kind = .subsequence then .substring else kind
    needle := needle ++ if dollar then ['$'] else []
    isNegative
    comparesBase := needle.all fun c => baseLetter c == c
    isAscii := isAsciiText text }

/-- The atoms of a pattern that look for something. -/
def parsePattern (text : List Char) : List Atom :=
  ((atomTexts false text).map Atom.parse).filter (!·.needle.isEmpty)

/-- A name as patterns see it. -/
structure SearchedName where
  letters : List Char
  /-- Every cluster begins with an ASCII character. -/
  isAscii : Bool
  deriving DecidableEq, Repr

namespace SearchedName

/-- The clusters of a name, or its bytes if all of them begin with an ASCII character; a byte that is not
ASCII stands as the character that it belongs to, and equals nothing that an ASCII needle holds. -/
def ofText (text : List Char) : SearchedName :=
  let heads := clusterHeads text
  if isAsciiText heads then ⟨text.flatMap fun c => List.replicate c.utf8Size c, true⟩ else ⟨heads, false⟩

/-- Blanks within names in ASCII are those of ASCII. -/
def isBlank (name : SearchedName) (c : Char) : Bool :=
  if name.isAscii then isAsciiBlank c else Text.isBlank c

/-- The name without its leading blanks, unless the needle begins with one. -/
def skipLeading (needle : List Char) (name : SearchedName) : SearchedName :=
  if needle.head?.any Text.isBlank then name
  else { name with letters := name.letters.dropWhile name.isBlank }

/-- The name without its trailing blanks, unless the needle ends with one. -/
def skipTrailing (needle : List Char) (name : SearchedName) : SearchedName :=
  if needle.getLast?.any Text.isBlank then name
  else { name with letters := (name.letters.reverse.dropWhile name.isBlank).reverse }

end SearchedName

def containsRun (needle : List Char) : List Char → Bool
  | [] => needle.isEmpty
  | c :: cs => needle.isPrefixOf (c :: cs) || containsRun needle cs

/-- Whether the needle stands somewhere, its first character compared by one rule and the others by
another. -/
def containsSeen (seeFirst see : Char → Char) (needle : List Char) : List Char → Bool
  | [] => needle.isEmpty
  | c :: cs => needle.isPrefixOf (seeFirst c :: cs.map see) || containsSeen seeFirst see needle cs

namespace Atom

/-- A character of a name as the atom compares it. -/
def normalize (a : Atom) (c : Char) : Char := foldCase (if a.comparesBase then baseLetter c else c)

/-- A character as the atom compares it while it searches: without base letters, small letters stay. -/
def normalizeSearched (a : Atom) (c : Char) : Char :=
  if a.comparesBase then foldCase (baseLetter c) else foldCapital c

/-- The name as the atom compares it. -/
def see (a : Atom) (name : SearchedName) : List Char :=
  name.letters.map (if name.isAscii then Char.toLower else a.normalize)

/-- The letters from the first that may begin the needle to the last after it that may end it. -/
def window (a : Atom) (letters : List Char) : List Char :=
  let begins := letters.dropWhile fun c => some (a.normalize c) != a.needle.head?
  let ends := (begins.drop 1).reverse.dropWhile fun c => some (a.normalize c) != a.needle.getLast?
  begins.take 1 ++ ends.reverse

/-- Whether a name longer than the needle has its characters in their order. -/
def findsWithin (a : Atom) (name : SearchedName) : Bool :=
  if name.isAscii || a.needle.length == 1 then a.needle.isSublist (a.see name)
  else
    let window := a.window name.letters
    if window.length ≤ a.needle.length then a.needle == window.map a.normalize
    else a.needle.isSublist (window.map a.normalizeSearched)

/-- Whether a name longer than the needle has it as one run. A name in ASCII is searched without case
only for a needle whose first or second character is a letter. Any other needle is taken as it is, and
what follows its first letter never reaches the end of the name; nor does a needle of several characters
in a name beyond ASCII. -/
def findsRun (a : Atom) (name : SearchedName) : Bool :=
  let letters := name.letters
  if name.isAscii then
    match a.needle.findIdx? Char.isLower with
    | none => containsRun a.needle letters
    | some p =>
      if p < 2 then containsRun a.needle (a.see name)
      else containsRun a.needle (letters.take (letters.length - a.needle.length + p))
  else if a.needle.length == 1 then containsRun a.needle (a.see name)
  else containsSeen a.normalizeSearched a.normalize a.needle letters.dropLast

/-- Whether the needle stands in the name, negation aside. A name in ASCII never holds a needle that was
not written in ASCII, and in a name no longer than the needle only the whole name counts. -/
def finds (a : Atom) (name : SearchedName) : Bool :=
  let isLonger := a.needle.length < name.letters.length
  if name.isAscii && !a.isAscii then false
  else
    match a.kind with
    | .subsequence => if isLonger then a.findsWithin name else a.needle == a.see name
    | .substring => if isLonger then a.findsRun name else a.needle == a.see name
    | .start => a.needle.isPrefixOf (a.see (name.skipLeading a.needle))
    | .finish => a.needle.isSuffixOf (a.see (name.skipTrailing a.needle))
    | .exact => a.needle == a.see ((name.skipLeading a.needle).skipTrailing a.needle)

def holds (a : Atom) (name : SearchedName) : Bool := a.finds name != a.isNegative

end Atom

/-- Whether a name fits the typed text, read as a pattern. -/
def fits (typed : String) (name : String) : Bool :=
  (parsePattern typed.toList).all (·.holds (.ofText name.toList))

/-- The items whose names fit the typed text, in their order. -/
def filterByLookAhead (typed : String) (items : List Item) : List Item :=
  items.filter fun item => fits typed item.displayText

end Typeahead.Lookup
