import Typeahead.Proofs.Workspace.Generations
import Typeahead.Server.State

namespace Typeahead.Server

open Workspace Lookup

/-- The list that the request comes to when nothing has happened to its document. -/
def Request.answer? (r : Request) : Option CompletionList := do
  let response ← r.response?
  if !response.outcome.isApplicable then none
  else (CompletionList.of r.document r.caret response).toOption

theorem State.finishCompletion_eq (s : State) (r : Request) :
    s.finishCompletion r =
      if s.documents.isCurrent r.address r.document.generation then r.answer? else none := by
  unfold State.finishCompletion Request.answer?
  cases r.response? with
  | none => simp
  | some response => cases current : s.documents.isCurrent r.address r.document.generation <;> simp

/-- An outdated request: its generation is current again exactly when the document was opened again and
has come as far since, and without that it gets no list. -/
theorem State.finishCompletion_of_superseded {s after : Store} {a : Address} {d : Document}
    (begun : s.beginRequest a = (some d, after)) {ops : List Operation}
    (superseded : ∃ op ∈ ops, op.supersedes a = true) :
    ((after.run ops).isCurrent a d.generation = true ↔ Reopened a d.generation ops) ∧
      ∀ (server : State) (r : Request), server.documents = after.run ops → r.address = a → r.document = d →
        (¬ Reopened a d.generation ops → server.finishCompletion r = none) ∧
          (Reopened a d.generation ops → server.finishCompletion r = r.answer?) := by
  have current := Store.isCurrent_run_iff_reopened (Store.generation?_of_beginRequest begun) superseded
  refine ⟨current, ?_⟩
  rintro server r documents rfl rfl
  rw [State.finishCompletion_eq, documents]
  constructor
  · intro fresh
    rw [if_neg fun still => fresh (current.mp still)]
  · intro reopened
    rw [if_pos (current.mpr reopened)]

def memoAddress : Address := { scheme := "file", path := "/memo.css" }

def memoDocument : Document := { languageId := "css", version := 1, text := "a \x7b colo" }

/-- A request for the document at its end, the first one since it was opened. -/
def memoRequest : Request :=
  { address := memoAddress, document := memoDocument.request, caret := 8
    catalog := ⟨{}, []⟩, nonPublic := false, helper := none }

def memoStore : Store := ({} : Store).put memoAddress memoDocument

/-- The server after some operations on the store in which the request is under way. -/
def memoServer (ops : List Operation) : State :=
  { files := { root := "/" }, documents := (memoStore.beginRequest memoAddress).2.run ops }

theorem State.finishCompletion_of_superseded_edits :
    let ops : List Operation :=
      [.close memoAddress, .opening memoAddress "css" 1 "b", .update memoAddress 2 "c", .request memoAddress]
    (∃ op ∈ ops, op.supersedes memoAddress = true) ∧ (memoServer ops).finishCompletion memoRequest = none := by
  intro ops
  have superseded : ∃ op ∈ ops, op.supersedes memoAddress = true := by decide
  have outdated := State.finishCompletion_of_superseded (s := memoStore) (a := memoAddress)
    (d := memoDocument.request) rfl superseded
  have fresh : ¬ Reopened memoAddress memoDocument.request.generation ops := by
    intro reopened
    exact absurd (outdated.1.mpr reopened) (by decide)
  exact ⟨superseded, (outdated.2 (memoServer ops) memoRequest rfl rfl rfl).1 fresh⟩

/-- A document that is closed, opened with another text and edited once: the request from before all that
is current, and it is answered with a list for the text that is gone. -/
theorem reopened_document_answers_outdated_request :
    let ops : List Operation :=
      [.close memoAddress, .opening memoAddress "css" 1 "b", .update memoAddress 2 "c"]
    memoStore.beginRequest memoAddress = (some memoRequest.document, (memoServer []).documents) ∧
      (∃ op ∈ ops, op.supersedes memoAddress = true) ∧
      (memoServer ops).documents.isCurrent memoAddress memoRequest.document.generation = true ∧
      ((memoServer ops).finishCompletion memoRequest).isSome = true := by
  refine ⟨rfl, by decide, by decide, by decide +kernel⟩

end Typeahead.Server
