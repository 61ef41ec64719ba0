import Typeahead.Text.Blank

namespace Typeahead.Source

open Text

/-- A part of a member-access chain: `a.B(x, y)[0].C<int>()` has the segments `a`, `B` with two arguments and one index,
and `C` with none. -/
structure Segment where
  name : String
  /-- Number of arguments, when the segment is a call. -/
  argumentCount : Option Nat := none
  /-- Number of indexers after the segment. -/
  indexDepth : Nat := 0
  deriving DecidableEq, Repr

/-- A bare name, neither called nor indexed. -/
def Segment.isPlain (s : Segment) : Bool := s.argumentCount.isNone && s.indexDepth == 0

/-- An argument list being read. -/
structure OpenCall where
  /-- Commas read so far. -/
  commas : Nat
  /-- Nothing but blanks was read so far. -/
  blank : Bool
  deriving DecidableEq, Repr

/-- The state of reading a chain from left to right. -/
structure ChainReader where
  /-- The segments read so far, the latest first. -/
  segments : List Segment := []
  /-- The name being read, backwards. -/
  current : List Char := []
  depth : Int := 0
  angles : Nat := 0
  call : Option OpenCall := none
  deriving DecidableEq, Repr

namespace ChainReader

/-- Ends the name being read. -/
def endName (r : ChainReader) : ChainReader :=
  if r.current.isEmpty then r
  else { r with segments := ⟨String.ofList r.current.reverse, none, 0⟩ :: r.segments, current := [] }

def changeLast (r : ChainReader) (change : Segment → Segment) : ChainReader :=
  match r.segments with
  | [] => r
  | last :: earlier => { r with segments := change last :: earlier }

/-- Notes a character as part of the argument list being read, if there is one. -/
def noteArgument (r : ChainReader) (c : Char) : ChainReader :=
  { r with call := r.call.map fun call => { call with blank := call.blank && isBlank c } }

/-- Ends an argument list: as many arguments as commas, and one more unless all was blank. -/
def endCall (r : ChainReader) (call : OpenCall) : ChainReader :=
  let count := call.commas + if call.blank then 0 else 1
  { r.changeLast fun s => { s with argumentCount := some count } with call := none }

def step (r : ChainReader) (c : Char) : ChainReader :=
  if r.angles > 0 then
    let r := r.noteArgument c
    if c = '<' then { r with angles := r.angles + 1 }
    else if c = '>' then { r with angles := r.angles - 1 }
    else r
  else if c = '<' ∧ r.depth = 0 then { (r.noteArgument c).endName with angles := 1 }
  else if c = '(' then
    if r.depth = 0 then { r.endName with depth := 1, call := some ⟨0, true⟩ }
    else { r.noteArgument c with depth := r.depth + 1 }
  else if c = ')' then
    match r.depth, r.call with
    | 1, some call => { r.endCall call with depth := 0 }
    | depth, _ => { r.noteArgument c with depth := depth - 1 }
  else if c = '[' then
    let r := r.noteArgument c
    if r.depth = 0 then
      { r.endName.changeLast fun s => { s with indexDepth := s.indexDepth + 1 } with depth := 1 }
    else { r with depth := r.depth + 1 }
  else if c = ']' then { r.noteArgument c with depth := r.depth - 1 }
  else
    match r.depth, r.call with
    | 1, some call =>
      if c = ',' then { r with call := some ⟨call.commas + 1, false⟩ } else r.noteArgument c
    | 0, _ =>
      let r := r.noteArgument c
      if c = '.' then r.endName
      else if isBlank c then r
      else { r with current := c :: r.current }
    | _, _ => r.noteArgument c

end ChainReader

/-- The segments of an expression. -/
def segmentsOf (expression : List Char) : List Segment :=
  (expression.foldl ChainReader.step {}).endName.segments.reverse

end Typeahead.Source
