import Typeahead.Proofs.Source.Origins

namespace Typeahead.Source

theorem NamedIn.not_reserved {ts : List Token} {text : String} (named : NamedIn ts text) : text ∉ reservedWords := by
  obtain ⟨name, -, read⟩ := named
  have kept := (Option.filter_eq_some_iff.mp read).2
  simpa using kept

/-- Nothing among some declarations is called by a reserved word. -/
structure Declarations.Unreserved (ds : Declarations) : Prop where
  vars : ∀ v ∈ ds.vars, v.name ∉ reservedWords
  methods : ∀ m ∈ ds.methods, m.name ∉ reservedWords
  properties : ∀ p ∈ ds.properties, p.name ∉ reservedWords

theorem Declarations.unreserved_empty : Declarations.Unreserved {} := by
  constructor <;> simp

theorem Declarations.ReadFrom.unreserved {scan : Scan} {fields : Span} {ts : List Token} {ds : Declarations}
    (read : ds.ReadFrom scan fields ts) : ds.Unreserved where
  vars v member := (read.vars v member).namedIn.not_reserved
  methods m member := (read.methods m member).1.not_reserved
  properties p member := (read.properties p member).1.not_reserved

/-- Nothing that a type declares is called by a reserved word. -/
theorem Declarations.unreserved_ofType (text : List Char) (region : TypeRegion) :
    (Declarations.ofType text region).Unreserved := (Declarations.readFrom_ofType text region).unreserved

/-- Nothing that a type inherits from bases in the text is called by a reserved word. -/
theorem unreserved_inheritedDeclarations (text : List Char) (region : TypeRegion) :
    (inheritedDeclarations text region).Unreserved where
  vars v member := by
    obtain ⟨base, -, u, declared, rfl⟩ := (passedOn_inheritedDeclarations text region).vars v member
    exact (Declarations.unreserved_ofType text base).vars u declared
  methods m member := by
    obtain ⟨base, -, declared⟩ := (passedOn_inheritedDeclarations text region).methods m member
    exact (Declarations.unreserved_ofType text base).methods m declared
  properties p member := by
    obtain ⟨base, -, declared⟩ := (passedOn_inheritedDeclarations text region).properties p member
    exact (Declarations.unreserved_ofType text base).properties p declared

theorem Context.unreserved (source : List Char) (caret : Nat) :
    (Context.of source caret).declarations.Unreserved ∧ (Context.of source caret).inherited.Unreserved := by
  simp only [Context.of]
  cases enclosingType (blank source) (Text.floorBoundary caret source) with
  | none => exact ⟨Declarations.unreserved_empty, Declarations.unreserved_empty⟩
  | some region => exact ⟨Declarations.unreserved_ofType _ region, unreserved_inheritedDeclarations _ region⟩

end Typeahead.Source
