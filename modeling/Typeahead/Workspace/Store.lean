import Typeahead.Address.Basic
import Typeahead.Workspace.Document

namespace Typeahead.Workspace

/-- The open documents under their addresses. -/
structure Store where
  documents : List (Address × Document) := []
  deriving Repr

namespace Store

def find? (s : Store) (a : Address) : Option Document := s.documents.lookup a

/-- Opens a document under an address. Any other document there is forgotten with its generation. -/
def put (s : Store) (a : Address) (d : Document) : Store :=
  ⟨(a, d) :: s.documents.filter (·.1 != a)⟩

def close (s : Store) (a : Address) : Store := ⟨s.documents.filter (·.1 != a)⟩

/-- Gives an open document a new text. -/
def update (s : Store) (a : Address) (version : Nat) (text : String) : Store :=
  match s.find? a with
  | some d => s.put a (d.edit version text)
  | none => s

/-- Starts a request: the document as the request sees it, with the generation that is now current. -/
def beginRequest (s : Store) (a : Address) : Option Document × Store :=
  match s.find? a with
  | some d => (some d.request, s.put a d.request)
  | none => (none, s)

/-- Whether nothing has happened to the document since a generation. -/
def isCurrent (s : Store) (a : Address) (generation : Nat) : Bool :=
  (s.find? a).any (·.generation == generation)

theorem lookup_filter_ne {documents : List (Address × Document)} {a other : Address} (h : other ≠ a) :
    (documents.filter (·.1 != a)).lookup other = documents.lookup other := by
  induction documents with
  | nil => rfl
  | cons first more ih =>
    obtain ⟨key, d⟩ := first
    by_cases removed : key = a
    · have different : (other == key) = false := by simpa [removed] using h
      rw [List.filter_cons_of_neg (by simpa using removed), List.lookup_cons, different, ih]
    · rw [List.filter_cons_of_pos (by simpa using removed), List.lookup_cons, List.lookup_cons, ih]

@[simp] theorem find?_put_self (s : Store) (a : Address) (d : Document) :
    (s.put a d).find? a = some d := by simp [put, find?]

theorem find?_put_of_ne {s : Store} {a other : Address} (d : Document) (h : other ≠ a) :
    (s.put a d).find? other = s.find? other := by
  have different : (other == a) = false := by simpa using h
  simp only [put, find?, List.lookup_cons, different]
  exact lookup_filter_ne h

theorem find?_close_of_ne {s : Store} {a other : Address} (h : other ≠ a) :
    (s.close a).find? other = s.find? other := lookup_filter_ne h

@[simp] theorem find?_close_self (s : Store) (a : Address) : (s.close a).find? a = none := by
  simp only [close, find?, List.lookup_eq_none_iff, List.mem_filter]
  intro entry kept
  have other : entry.1 ≠ a := by simpa using kept.2
  simpa using other.symm

end Store

end Typeahead.Workspace
