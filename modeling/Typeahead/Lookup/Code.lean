import Typeahead.Lookup.Stage

namespace Typeahead.Lookup

open Text Catalog Source

/-- Answers for a line that begins with an option marker: the marker and what is typed after it. -/
abbrev EmbeddedHelper := (marker : Char) → (typed : List Char) → Response

/-- An outcome with the text that a chosen item replaces. -/
def Response.ofOutcome (outcome : Outcome) (lookAhead : String) : Response :=
  if outcome.isApplicable then { outcome, lookAhead } else .notApplicable

/-- The stages in their order. Without a type around the caret only a directive has an answer. -/
def Scope.respond (s : Scope) (before : List Char) : Response :=
  let target := Target.of before
  let outcome := (s.usingStage before).orElse fun _ =>
    if s.context.beforeFirstType || s.context.region.isNone then .notApplicable else s.codeStages target
  .ofOutcome outcome target.lookAhead

/-- The lookup at a caret in code. A line with an option marker goes to the helper, and in comments and
literals there is no answer. -/
def lookupCode (helper : Option EmbeddedHelper) (catalog : Catalog) (nonPublic : Bool)
    (source : List Char) (caret : Nat) : Except CutError Response := do
  let context := Context.of source caret
  let (before, _) ← cut context.caret context.source
  match embeddedOption? before with
  | some (marker, typed) =>
    return match helper with
      | some answer => answer marker typed
      | none => .notApplicable
  | none =>
    if inCommentOrLiteral context.source context.caret then return .notApplicable
    else
      let (before, _) ← cut context.caret context.text
      return Scope.respond { catalog, context, nonPublic } before

end Typeahead.Lookup
