import Typeahead.Json.Basic
import Typeahead.Language
import Typeahead.Server.CompletionList

namespace Typeahead.Server

open Text

def Position.toJson (p : Position) : Json :=
  .object [("line", .nat p.line), ("character", .nat p.column)]

def Range.toJson (r : Range) : Json :=
  .object [("start", Position.toJson r.start), ("end", Position.toJson r.stop)]

/-- Texts are plain, without markup. -/
def documentationJson (text : String) : Json :=
  .object [("kind", .string "plaintext"), ("value", .string text)]

/-- A field without a value is left out. -/
def Entry.toJson (e : Entry) : Json :=
  .ofFields [
    ("label", some (.string e.label)),
    ("kind", some (.nat e.kind)),
    ("detail", e.detail.map .string),
    ("documentation", e.documentation.map documentationJson),
    ("sortText", some (.string e.sortText)),
    ("filterText", e.filterText.map .string),
    ("insertTextFormat", some (.nat (if e.isSnippet then 2 else 1))),
    ("textEdit", some (.object [("range", e.range.toJson), ("newText", .string e.newText)]))]

def CompletionList.toJson (l : CompletionList) : Json :=
  .object [("isIncomplete", .bool l.isIncomplete), ("items", .array (l.entries.map Entry.toJson))]

/-- What the server can do: documents come as whole texts, and completion is also asked for after the
trigger characters. -/
def capabilities (triggers : List String) : Json :=
  .object [
    ("textDocumentSync", .nat 1),
    ("completionProvider", .object [
      ("resolveProvider", .bool false),
      ("triggerCharacters", .array (triggers.map .string)),
      ("workDoneProgress", .bool true)])]

/-- The answer to the first request. -/
def welcome : Json :=
  .object [
    ("serverInfo", .object [("name", .string "code-assist"), ("version", .string "0.1.0")]),
    ("capabilities", capabilities Language.allTriggers)]

end Typeahead.Server
