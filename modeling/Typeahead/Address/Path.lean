import Typeahead.Address.Escape
import Typeahead.Text.Place

namespace Typeahead.Address

open Text

abbrev Segment := List Char

namespace Segment

/-- The segment that stands for the one it is in; a dot may be escaped. -/
def isCurrent (s : Segment) : Bool := [['.'], ['%', '2', 'e']].contains (s.map Char.toLower)

/-- The segment that stands for the one above. -/
def isParent (s : Segment) : Bool :=
  [['.', '.'], ['.', '%', '2', 'e'], ['%', '2', 'e', '.'], ['%', '2', 'e', '%', '2', 'e']].contains
    (s.map Char.toLower)

def isDots (s : Segment) : Bool := s.isParent || s.isCurrent

/-- A letter and a colon or bar, at the end of the segment or before a backslash. -/
def startsWithDrive : Segment → Bool
  | letter :: mark :: more =>
    letter.isAlpha && (mark == ':' || mark == '|') && (more.isEmpty || more.head? == some '\\')
  | _ => false

def isDrive (s : Segment) : Bool := s.length == 2 && s.startsWithDrive

/-- A drive letter is written with a colon. -/
def normalizeDrive (s : Segment) : Segment := if s.isDrive then s.take 1 ++ [':'] else s

end Segment

/-- The segments without the last one, the last first. The first segment of a path and a drive stay. -/
def parentOf : List Segment → List Segment
  | last :: first :: others => if last.startsWithDrive then last :: first :: others else first :: others
  | only => only

/-- Adds a segment to those of a path, the last first. The first segment of a file's path after the root
may be a drive letter. -/
def place (isFile : Bool) (done : List Segment) (s : Segment) : List Segment :=
  if s.isParent then parentOf done
  else if s.isCurrent then done
  else (if isFile && done == [[]] then s.normalizeDrive else s) :: done

/-- The segments of a path under its root. A path that ends in a segment for another one ends in an
empty one after it. -/
def resolve (isFile : Bool) (segments : List Segment) : List Segment :=
  let done := segments.foldl (place isFile) [[]]
  ((if segments.getLast?.any Segment.isDots then [[]] else []) ++ done).reverse

/-- The path below a root, with a backslash as another slash where the scheme has it so. -/
def readPath (isFile hasBackslash : Bool) (text : List Char) : List Segment :=
  let isSlash (c : Char) : Bool := c == '/' || (hasBackslash && c == '\\')
  resolve isFile ((fields isSlash text).map (escape pathReserved))

/-- The first segment under the root is a drive letter. -/
def hasDrive (segments : List Segment) : Bool := segments[1]?.any Segment.isDrive

def pathText (segments : List Segment) : List Char := ['/'].intercalate segments

end Typeahead.Address
