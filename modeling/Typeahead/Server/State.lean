import Typeahead.Language
import Typeahead.Lookup.PathHelper
import Typeahead.Server.CompletionList
import Typeahead.Server.Settings
import Typeahead.Workspace.Store

namespace Typeahead.Server

open Text Lookup Workspace

/-- How far the client has come in opening and closing the session. -/
inductive Phase where
  | uninitialized
  | running
  | shutDown
  deriving DecidableEq, Repr

/-- Why a request is refused. -/
inductive RequestError where
  | notInitialized
  | invalidRequest
  | invalidParameters
  deriving DecidableEq, Repr

def RequestError.code : RequestError → Int
  | .notInitialized => -32002
  | .invalidRequest => -32600
  | .invalidParameters => -32602

/-- The open documents, the settings, the catalog that lookups read, and the rebuilds of it that are under way. -/
structure State where
  /-- The files that settings and path completion refer to. -/
  files : FileTree
  phase : Phase := .uninitialized
  documents : Store := {}
  settings : Settings := {}
  catalog : Catalog := Settings.catalog {} files
  /-- Path completion is on; it needs a root that the client has named. -/
  hasRoot : Bool := false
  /-- The settings of each rebuild of the catalog that has not ended. -/
  rebuilds : List Settings := []

/-- The language name under which a document is opened: the client's if it is known, or else one by the
path. -/
def languageFor? (a : Address) (name : String) : Option String :=
  if (Language.find? name).isSome then some name
  else (Language.nameOfPath? a.path).filter fun name => (Language.find? name).isSome

/-- A request for completion that has started, with everything as it was then. -/
structure Request where
  address : Address
  document : Document
  caret : Nat
  catalog : Catalog
  nonPublic : Bool
  helper : Option EmbeddedHelper

namespace State

def helper (s : State) : Option EmbeddedHelper := if s.hasRoot then some (pathHelper s.files) else none

/-- Begins a rebuild of the catalog with the settings as they are. -/
def startRebuild (s : State) : State := { s with rebuilds := s.rebuilds ++ [s.settings] }

/-- Ends one of the rebuilds: its catalog takes the place of the other. -/
def finishRebuild (s : State) (index : Nat) : State :=
  match s.rebuilds[index]? with
  | some settings =>
    { s with catalog := settings.catalog s.files, rebuilds := s.rebuilds.eraseIdx index }
  | none => s

/-- Ends all rebuilds in the order in which they began. -/
def finishRebuilds (s : State) : State :=
  match s.rebuilds.getLast? with
  | some settings => { s with catalog := settings.catalog s.files, rebuilds := [] }
  | none => s

/-- Takes new settings over; a message that is not understood changes nothing. -/
def accept? (s : State) (message : Json) : Option State :=
  (Settings.ofMessage? message).map fun settings => { s with settings }

/-- The first request. Settings in it that are not understood are passed over. -/
def start (s : State) (hasRoot : Bool) (options : Option Json) : Except RequestError State :=
  if s.phase = .uninitialized then
    let s := (options.bind s.accept?).getD s
    .ok (startRebuild { s with phase := .running, hasRoot })
  else .error .invalidRequest

/-- A message without an answer; it counts only while the server runs. -/
def whileRunning (s : State) (change : State → State) : State :=
  if s.phase = .running then change s else s

/-- A message about a document; without an address that can be read it does not count. -/
def about (s : State) (uri : String) (change : Address → State → State) : State :=
  match Address.parse? uri with
  | some a => s.whileRunning (change a)
  | none => s

def openDocument (s : State) (uri name text : String) (version : Nat) : State :=
  s.about uri fun a s =>
    match languageFor? a name with
    | some languageId => { s with documents := s.documents.put a { languageId, version, text } }
    | none => s

/-- Several new texts may come at once; the last one is the document. A version of more than 31 bits is
not understood. -/
def changeDocument (s : State) (uri : String) (version : Nat) (texts : List String) : State :=
  s.about uri fun a s =>
    match texts.getLast? with
    | some text => if version < 0x80000000 then { s with documents := s.documents.update a version text } else s
    | none => s

def closeDocument (s : State) (uri : String) : State :=
  s.about uri fun a s => { s with documents := s.documents.close a }

def configure (s : State) (message : Json) : State :=
  s.whileRunning fun s =>
    match s.accept? message with
    | some s => s.startRebuild
    | none => s

/-- Whether a request may be made now. -/
def admits (s : State) : Except RequestError Unit :=
  match s.phase with
  | .running => .ok ()
  | .uninitialized => .error .notInitialized
  | .shutDown => .error .invalidRequest

def shutdown (s : State) : Except RequestError State := do
  s.admits
  return { s with phase := .shutDown }

/-- What a request for completion is about. Lines and columns have 32 bits. -/
def readTarget (uri : String) (position : Position) : Except RequestError Address :=
  match Address.parse? uri with
  | some a => if position.line < 0x100000000 ∧ position.column < 0x100000000 then .ok a else .error .invalidParameters
  | none => .error .invalidParameters

/-- Starts a request for completion. There is none for a document that is not open and for a line that
it does not have. -/
def beginCompletion (s : State) (uri : String) (position : Position) :
    Except RequestError (Option Request × State) := do
  s.admits
  let address ← readTarget uri position
  let (started, documents) := s.documents.beginRequest address
  let request := do
    let document ← started
    let caret ← document.offsetAt? position
    return ({
      address, document, caret
      catalog := s.catalog
      nonPublic := s.settings.allowNonPublic
      helper := s.helper } : Request)
  return (request, { s with documents })

end State

/-- What the request finds, with everything as it was at its start. -/
def Request.response? (r : Request) : Option Response := do
  let language ← Language.find? r.document.languageId
  (language.complete r.helper r.catalog r.nonPublic r.document.text.toList r.caret).toOption

/-- Ends a request. There is no answer when the document has changed since, when a later request was
made for it, or when no lookup applies. -/
def State.finishCompletion (s : State) (r : Request) : Option CompletionList := do
  let response ← r.response?
  if !s.documents.isCurrent r.address r.document.generation then none
  else if !response.outcome.isApplicable then none
  else (CompletionList.of r.document r.caret response).toOption

end Typeahead.Server
