import Typeahead.Proofs.Restriction.Stage

namespace Typeahead.Catalog

/-- The public members of all types, and all members of some types. -/
def publicOr (names : List String) : Selection :=
  fun typeName m => m.access == .publicAccess || names.contains typeName

theorem keepsPublic_publicOr (names : List String) : (publicOr names).KeepsPublic := by
  intro name m isPublic
  simp [publicOr, isPublic]

end Typeahead.Catalog

namespace Typeahead.Lookup

open Text Catalog Source

namespace Scope

/-- The names of the base types of the type around the caret and of all they derive from. -/
def inheritedNames (s : Scope) : List String :=
  s.baseTypes.flatMap fun base => (s.catalog.ancestry base).map (·.fullName)

theorem covers_publicOr {s : Scope} (publicOnly : s.nonPublic = false) : s.Covers (publicOr s.inheritedNames) where
  publicOnly := publicOnly
  keepsPublic := keepsPublic_publicOr _
  inherited := by
    intro base isBase ancestor above m
    have named : ancestor.fullName ∈ s.inheritedNames :=
      List.mem_flatMap.mpr ⟨base, isBase, List.mem_map_of_mem above⟩
    simp [publicOr, named]

theorem inheritedNames_restrict (s : Scope) (keep : Selection) :
    (s.restrict keep).inheritedNames = s.inheritedNames := by
  unfold inheritedNames
  rw [baseTypes_restrict, List.flatMap_map]
  refine congrArg (List.flatMap · s.baseTypes) (funext fun base => ?_)
  show ((s.catalog.restrict keep).ancestry (base.restrict keep)).map _ = _
  rw [ancestry_restrict, List.map_map]
  rfl

/-- The scope at a caret for a lookup that goes by public members. -/
def publicAt (c : Catalog) (source : List Char) (caret : Nat) : Scope :=
  { catalog := c, context := Context.of source caret, nonPublic := false }

/-- The members that the lookup rests on. -/
def uses (s : Scope) : List Found :=
  match cut s.context.caret s.context.text with
  | .ok (before, _) => s.targetUses (.of before)
  | .error _ => []

/-- The lookup rests on no member that is not public, those of base types aside. -/
def isDiscreet (s : Scope) : Bool := s.uses.all (·.isKept (publicOr s.inheritedNames))

end Scope

/-- Without the members that are not public the answer is the same, when the lookup rests on none of them. -/
theorem lookupCode_restrict (helper : Option EmbeddedHelper) (c : Catalog) (source : List Char) (caret : Nat)
    (discreet : (Scope.publicAt c source caret).isDiscreet = true) :
    lookupCode helper (c.restrict (publicOr (Scope.publicAt c source caret).inheritedNames)) false source caret =
      lookupCode helper c false source caret := by
  have covers := Scope.covers_publicOr (s := Scope.publicAt c source caret) rfl
  have kept := List.all_eq_true.mp discreet
  simp only [lookupCode, bind, Except.bind]
  cases cut (Context.of source caret).caret (Context.of source caret).source with
  | error e => rfl
  | ok shown =>
    simp only
    split
    · rfl
    · split
      · rfl
      · cases place : cut (Context.of source caret).caret (Context.of source caret).text with
        | error e => rfl
        | ok shown =>
          have uses : (Scope.publicAt c source caret).uses =
              (Scope.publicAt c source caret).targetUses (.of shown.1) := by
            simp only [Scope.uses, Scope.publicAt, place]
          rw [uses] at kept
          exact congrArg Except.ok (Scope.respond_restrict covers kept)

/-- Catalogs that differ in members that are not public, those of base types aside, give one answer when
neither lookup rests on such a member. -/
theorem lookupCode_eq_of_restrict_eq (helper : Option EmbeddedHelper) (source : List Char) (caret : Nat)
    {c d : Catalog}
    (alike : c.restrict (publicOr (Scope.publicAt c source caret).inheritedNames) =
      d.restrict (publicOr (Scope.publicAt c source caret).inheritedNames))
    (discreet : (Scope.publicAt c source caret).isDiscreet = true)
    (discreetToo : (Scope.publicAt d source caret).isDiscreet = true) :
    lookupCode helper c false source caret = lookupCode helper d false source caret := by
  have names : (Scope.publicAt d source caret).inheritedNames = (Scope.publicAt c source caret).inheritedNames := by
    rw [← Scope.inheritedNames_restrict (Scope.publicAt d source caret),
      ← Scope.inheritedNames_restrict (Scope.publicAt c source caret)]
    exact congrArg (fun catalog => (Scope.publicAt catalog source caret).inheritedNames) alike.symm
  calc
    lookupCode helper c false source caret =
        lookupCode helper (c.restrict (publicOr (Scope.publicAt c source caret).inheritedNames)) false source caret :=
      (lookupCode_restrict helper c source caret discreet).symm
    _ = lookupCode helper (d.restrict (publicOr (Scope.publicAt d source caret).inheritedNames)) false source
          caret := by
      rw [alike, names]
    _ = lookupCode helper d false source caret := lookupCode_restrict helper d source caret discreetToo

/-- An assembly in which two types declare members that are not public, or leave them out. -/
def depot (hidden : Bool) : Assembly :=
  let private? (m : MemberInfo) : List MemberInfo := if hidden then [{ m with access := .privateAccess }] else []
  { name := "Depot"
    types := [
      { name := "Shelf", kind := .classType
        members :=
          { name := "Take", kind := .method, typeName := "Shelf" } ::
          { name := "Label", kind := .field, typeName := "Shelf" } ::
          private? { name := "Take", kind := .method, typeName := "Vault", parameters := [⟨"count", "Shelf"⟩] } ++
          private? { name := "Inner", kind := .field, typeName := "Vault" } },
      { name := "Vault", kind := .classType, members := [{ name := "Code", kind := .field, typeName := "Shelf" }] },
      { namespaceName := some "Tools", name := "Keys", kind := .classType, isExtensionContainer := true
        members := private?
          { name := "Open", kind := .method, typeName := "Vault", isStatic := true, isExtension := true
            parameters := [⟨"shelf", "Shelf"⟩] } }] }

def depotCatalog (hidden : Bool) : Catalog :=
  { references := { workspace := ["Depot"] }, loader := [.memory [depot hidden]] }

theorem restrict_depotCatalog :
    (depotCatalog false).restrict (publicOr []) = (depotCatalog true).restrict (publicOr []) := by
  refine congrArg (Catalog.mk _) ?_
  decide +kernel

/-- A method of a class with a shelf, up to the caret. -/
def shelfCode (typed : String) : List Char := ("using Tools; class X \x7b Shelf s; void M() \x7b " ++ typed).toList

theorem lookupCode_eq_of_restrict_eq_take :
    let code := shelfCode "var v = s.Take(); v.Take()."
    (depotCatalog false).loader ≠ (depotCatalog true).loader ∧
      (Scope.publicAt (depotCatalog true) code code.length).isDiscreet = true ∧
      lookupCode none (depotCatalog false) false code code.length =
        lookupCode none (depotCatalog true) false code code.length := by
  intro code
  have names : (Scope.publicAt (depotCatalog false) code code.length).inheritedNames = [] := by decide +kernel
  have discreet : (Scope.publicAt (depotCatalog false) code code.length).isDiscreet = true := by decide +kernel
  have discreetToo : (Scope.publicAt (depotCatalog true) code code.length).isDiscreet = true := by decide +kernel
  have alike := restrict_depotCatalog
  rw [← names] at alike
  refine ⟨by decide +kernel, discreetToo, ?_⟩
  exact lookupCode_eq_of_restrict_eq none code code.length alike discreet discreetToo

/-- What is offered after the typed text depends on private members, none of which is inherited. -/
def revealsPrivate (typed : String) : Bool :=
  let code := shelfCode typed
  let answer (hidden : Bool) := (lookupCode none (depotCatalog hidden) false code code.length).toOption
  (Scope.publicAt (depotCatalog false) code code.length).inheritedNames == [] && answer false != answer true

/-- A private overload, a private member that an initializer goes on with and a private extension method
change what is offered after them. -/
theorem lookupCode_reveals_private_members :
    (depotCatalog false).restrict (publicOr []) = (depotCatalog true).restrict (publicOr []) ∧
      revealsPrivate "s.Take(s)." = true ∧ revealsPrivate "var v = s.Inner; v." = true ∧
      revealsPrivate "s.Open()." = true :=
  ⟨restrict_depotCatalog, by decide +kernel, by decide +kernel, by decide +kernel⟩

end Typeahead.Lookup
