import Typeahead.Text.ClusterClass

namespace Typeahead.Text

namespace ClusterClass

/-- Nothing joins it, on either side. -/
def isControl (k : ClusterClass) : Bool := k == .carriageReturn || k == .lineFeed || k == .control

/-- Marks that may stand between two consonants of a conjunct. -/
def isWithinConjunct (k : ClusterClass) : Bool := k == .mark || k == .linker || k == .zeroWidthJoiner

/-- Marks that may stand between a picture and a joiner. -/
def isAfterPicture (k : ClusterClass) : Bool := k == .mark || k == .linker || k == .zeroWidthNonJoiner

/-- It belongs to what stands before it. -/
def isTrailing (k : ClusterClass) : Bool := k.isAfterPicture || k == .zeroWidthJoiner || k == .spacingMark

/-- Two parts of one Korean syllable. -/
def joinsSyllable : ClusterClass → ClusterClass → Bool
  | .initial, .initial | .initial, .vowel | .initial, .openSyllable | .initial, .closedSyllable => true
  | .openSyllable, .vowel | .openSyllable, .final | .vowel, .vowel | .vowel, .final => true
  | .closedSyllable, .final | .final, .final => true
  | _, _ => false

/-- A consonant after another one, a linker and nothing but marks between them. -/
def joinsConjunct (before : List ClusterClass) (next : ClusterClass) : Bool :=
  next == .consonant && (before.takeWhile isWithinConjunct).contains .linker &&
    (before.dropWhile isWithinConjunct).head? == some .consonant

/-- A picture after another one and a joiner. -/
def joinsPicture : List ClusterClass → ClusterClass → Bool
  | .zeroWidthJoiner :: before, .pictograph => (before.dropWhile isAfterPicture).head? == some .pictograph
  | _, _ => false

/-- The second half of a flag. -/
def joinsFlag (before : List ClusterClass) (next : ClusterClass) : Bool :=
  next == .regional && (before.takeWhile (· == .regional)).length % 2 == 1

/-- Whether a character belongs to the cluster before it, whose classes are given from the last to the
first. -/
def joins : List ClusterClass → ClusterClass → Bool
  | [], _ => false
  | last :: before, next =>
    if last.isControl || next.isControl then last == .carriageReturn && next == .lineFeed
    else
      next.isTrailing || last == .prepended || joinsSyllable last next ||
        joinsConjunct (last :: before) next || joinsPicture (last :: before) next ||
        joinsFlag (last :: before) next

end ClusterClass

/-- The first character of each cluster of a text that follows the given part of one. -/
def headsAfter (cluster : List ClusterClass) : List Char → List Char
  | [] => []
  | c :: cs =>
    let k := clusterClass c
    if ClusterClass.joins cluster k then headsAfter (k :: cluster) cs else c :: headsAfter [k] cs

/-- The first character of each letter with its marks, flag, Korean syllable or picture made of several. -/
def clusterHeads (cs : List Char) : List Char := headsAfter [] cs

theorem headsAfter_sublist (cluster : List ClusterClass) (cs : List Char) :
    (headsAfter cluster cs).Sublist cs := by
  fun_induction headsAfter cluster cs with
  | case1 => exact .slnil
  | case2 _ c cs _ _ ih => exact ih.cons c
  | case3 _ c cs _ _ ih => exact ih.cons_cons c

theorem clusterHeads_sublist (cs : List Char) : (clusterHeads cs).Sublist cs := headsAfter_sublist [] cs

end Typeahead.Text
