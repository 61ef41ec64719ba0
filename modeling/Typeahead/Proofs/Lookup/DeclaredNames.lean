import Typeahead.Lookup.Stage
import Typeahead.Proofs.Lookup.CandidateSet

namespace Typeahead.Source

/-- What a type inherits from its only base when that has no base. -/
theorem inheritedDeclarations_of_one {text : List Char} {region base : TypeRegion} {name : String}
    (written : region.bases = [name]) (found : typeNamed text (simpleBaseName name) = some base)
    (other : simpleBaseName name ≠ region.name) (plain : base.bases = []) :
    inheritedDeclarations text region =
      ((Declarations.ofType text base).inheritable).withSpan (Span.of region.bodyStart region.stop) ++ {} := by
  have regions : inheritedRegions text region = [base] := by
    simp [inheritedRegions, maxBases, baseRegions, written, other, found, plain]
  rw [inheritedDeclarations, regions]
  rfl

end Typeahead.Source

namespace Typeahead.Lookup

open Catalog Source

theorem Item.isMethod_category_merge (existing repeated : Item) :
    (existing.merge repeated).category.isMethod = existing.category.isMethod := by
  unfold Item.merge
  split
  · next both =>
    have isMethod := (Bool.and_eq_true_iff.mp both).1
    split
    · rfl
    · rfl
    · by_cases single : existing.category = .method
      · simp [single, Category.isMethod]
      · simp [single]
  · rfl

/-- What is no method stays as it was found first. -/
theorem Item.foldl_merge_of_not_method {first : Item} (later : List Item)
    (plain : (later.foldl Item.merge first).category.isMethod = false) : later.foldl Item.merge first = first := by
  induction later generalizing first with
  | nil => rfl
  | cons repeated later ih =>
    have merged : first.merge repeated = (later.foldl Item.merge (first.merge repeated)) := (ih plain).symm
    have kept : first.category.isMethod = false := by
      rw [← Item.isMethod_category_merge first repeated, merged]
      exact plain
    have same : first.merge repeated = first := by simp [Item.merge, kept]
    rw [List.foldl_cons, same]
    exact ih (by simpa [same] using plain)

/-- An item of a set that is no method is the first of its name in the list that made the set. -/
theorem CandidateSet.find?_of_mem_ofList {items : List Item} {item : Item} (listed : item ∈ (ofList items).items)
    (plain : item.category.isMethod = false) : items.find? (Item.isNamed item.displayText) = some item := by
  have made := mergeAll?_of_mem listed
  rw [← List.head?_filter]
  cases named : items.filter (Item.isNamed item.displayText) with
  | nil => simp [named, mergeAll?] at made
  | cons first later =>
    rw [named] at made
    obtain rfl := Option.some.inj made
    rw [Item.foldl_merge_of_not_method later plain]
    rfl

/-- The item of a list that shows a declared variable or property. -/
def Entity.item? (origin : String) : Entity → Option Item
  | .variable v => some (variableItem v origin)
  | .property p => some (propertyItem p origin)
  | .method _ | .inherited _ => none

namespace Scope

variable {s : Scope} {name : String}

def ownVariable? (s : Scope) (name : String) : Option Variable :=
  s.context.declarations.findVariable? name s.context.caret s.context.declContext

def inheritedVariable? (s : Scope) (name : String) : Option Variable :=
  s.context.inherited.findVariable? name s.context.caret s.context.declContext

def ownProperty? (s : Scope) (name : String) : Option Property :=
  s.context.declarations.findProperty? name s.context.declContext

def inheritedProperty? (s : Scope) (name : String) : Option Property :=
  s.context.inherited.findProperty? name s.context.declContext

/-- The type has a property of the name but no variable, and it inherits a variable of the name. -/
def hasPropertyOverVariable (s : Scope) (name : String) : Bool :=
  (s.ownVariable? name).isNone && (s.ownProperty? name).isSome && (s.inheritedVariable? name).isSome

theorem entity?_name (s : Scope) (name : String) (indexDepth : Nat) :
    s.entity? { name, indexDepth } =
      ((s.ownVariable? name).map Entity.variable
        |>.or ((s.ownProperty? name).map .property)
        |>.or ((s.inheritedVariable? name).map .variable)
        |>.or ((s.inheritedProperty? name).map .property)
        |>.or ((s.inheritedMember? name).map .inherited)) := rfl

/-- A bare name has the type of the declaration that it means. -/
theorem localHead?_name {entity : Entity} (means : s.entity? { name } = some entity) :
    s.localHead? { name } = some (s.entityType s.variableType entity) := by
  unfold localHead? localHeadWith
  rw [means, Option.map_some]
  cases s.entityType s.variableType entity <;> rfl

theorem find?_variableItem (vars : List Variable) (name origin : String) :
    (vars.map (variableItem · origin)).find? (Item.isNamed name) =
      (vars.find? (·.name == name)).map (variableItem · origin) := List.find?_map ..

theorem find?_methodItem (methods : List Method) (name origin : String) :
    (methods.map (methodItem · origin)).find? (Item.isNamed name) =
      (methods.find? (·.name == name)).map (methodItem · origin) := List.find?_map ..

theorem find?_propertyItem (properties : List Property) (name origin : String) :
    (properties.map (propertyItem · origin)).find? (Item.isNamed name) =
      (properties.find? (·.name == name)).map (propertyItem · origin) := List.find?_map ..

/-- A local or parameter in sight is found before any field of its name. -/
theorem kind_of_ownVariable? {v : Variable}
    (visible : v ∈ s.context.declarations.visibleVariables s.context.declContext s.context.caret)
    (named : v.name = name) (isLocal : v.kind ≠ .field) :
    ∃ first, s.ownVariable? name = some first ∧ first.kind ≠ .field := by
  have inSight := (List.mem_filter.mp visible).2
  have declared : v ∈ s.context.declarations.vars := by
    rcases List.mem_append.mp (List.mem_filter.mp visible).1 with inside | field
    · exact (List.mem_filter.mp inside).1
    · exact (List.mem_filter.mp field).1
  let locals := (s.context.declarations.vars.filter (·.kind != .field)).filter (·.span.contains s.context.caret)
  have among : v ∈ locals := by simp [locals, declared, isLocal, inSight]
  have isSome : (locals.find? (·.name == name)).isSome = true :=
    List.find?_isSome.mpr ⟨v, among, by simpa using named⟩
  obtain ⟨first, found⟩ := Option.isSome_iff_exists.mp isSome
  refine ⟨first, ?_, ?_⟩
  · unfold ownVariable? Declarations.findVariable? Declarations.visibleVariables Declarations.variablesIn
    rw [List.filter_append, List.find?_append]
    simp only [locals] at found
    rw [found]
    rfl
  · have inside := (List.mem_filter.mp (List.mem_of_find?_eq_some found)).1
    simpa using (List.mem_filter.mp inside).2

/-- The first item of a name among the declarations: variables first, and methods before properties. -/
theorem find?_declaredItems (s : Scope) (name : String) :
    let origin := "visible_scope"
    let context := s.context.declContext
    s.declaredItems.find? (Item.isNamed name) =
      ((s.ownVariable? name).map (variableItem · origin)
        |>.or ((s.inheritedVariable? name).map (variableItem · origin))
        |>.or ((s.context.declarations.findMethod? name context).map (methodItem · origin))
        |>.or ((s.ownProperty? name).map (propertyItem · origin))
        |>.or ((s.context.inherited.findMethod? name context).map (methodItem · origin))
        |>.or ((s.inheritedProperty? name).map (propertyItem · origin))) := by
  simp only [declaredItems, List.flatMap_cons, List.flatMap_nil, List.append_nil, List.find?_append,
    find?_variableItem, find?_methodItem, find?_propertyItem, Option.or_assoc]
  rfl

/-- An item of a value in the list has a declaration for its name at the head of a chain, and it shows that
declaration unless an own property has the name of an inherited variable. -/
theorem exists_entity_of_find? {item : Item} (plain : item.category.isMethod = false)
    (found : s.declaredItems.find? (Item.isNamed name) = some item) :
    ∃ entity, s.entity? { name } = some entity ∧
      (entity.item? "visible_scope" = some item ↔ s.hasPropertyOverVariable name = false) := by
  have notMethod (m : Method) : methodItem m "visible_scope" ≠ item := by
    rintro rfl
    have isMethod : true = false := plain
    exact Bool.noConfusion isMethod
  have differ (p : Property) (v : Variable) : propertyItem p "visible_scope" ≠ variableItem v "visible_scope" := by
    intro same
    have categories := congrArg Item.category same
    cases kind : v.kind <;> simp [propertyItem, variableItem, Item.named, Item.withTooltip, kind] at categories
  revert found
  rw [find?_declaredItems, entity?_name, hasPropertyOverVariable]
  -- the cases follow the order of the list; only the second case of an inherited variable tells the orders apart
  cases s.ownVariable? name with
  | some v =>
    intro found
    obtain rfl := Option.some.inj found
    exact ⟨.variable v, rfl, by simp [Entity.item?]⟩
  | none =>
    cases s.inheritedVariable? name with
    | some v =>
      intro found
      obtain rfl := Option.some.inj found
      cases s.ownProperty? name with
      | none => exact ⟨.variable v, rfl, by simp [Entity.item?]⟩
      | some p => exact ⟨.property p, rfl, by simp [Entity.item?, differ]⟩
    | none =>
      cases s.context.declarations.findMethod? name s.context.declContext with
      | some m => exact fun found => absurd (Option.some.inj found) (notMethod m)
      | none =>
        cases s.ownProperty? name with
        | some p =>
          intro found
          obtain rfl := Option.some.inj found
          exact ⟨.property p, rfl, by simp [Entity.item?]⟩
        | none =>
          cases s.context.inherited.findMethod? name s.context.declContext with
          | some m => exact fun found => absurd (Option.some.inj found) (notMethod m)
          | none =>
            intro found
            obtain ⟨p, isProperty, rfl⟩ := Option.map_eq_some_iff.mp found
            exact ⟨.property p, by simp [isProperty], by simp [Entity.item?]⟩

/-- An own declaration of a name is what the name means, a variable before a property. -/
theorem entity?_of_own {entity : Entity} (means : s.entity? { name } = some entity) :
    (∀ v, s.ownVariable? name = some v → entity = .variable v) ∧
      ∀ p, s.ownVariable? name = none → s.ownProperty? name = some p → entity = .property p := by
  rw [entity?_name] at means
  constructor
  · intro v isVariable
    rw [isVariable] at means
    exact (Option.some.inj means).symm
  · intro p noVariable isProperty
    rw [noVariable, isProperty] at means
    exact (Option.some.inj means).symm

/-- What the list shows under a name as a variable or a property is what the name means at the head of a
chain, unless an own property has the name of an inherited variable: then the list shows the variable and
the name means the property. Locals and parameters come before fields, own declarations before inherited
ones. -/
theorem entity?_of_mem_declaredItems {item : Item} (listed : item ∈ merged s.declaredItems)
    (value : item.category ∈ [.field, .localVariable, .property]) :
    let name := item.displayText
    ∃ entity,
      (∀ indexDepth, s.entity? { name, indexDepth } = some entity) ∧
      s.localHead? { name } = some (s.entityType s.variableType entity) ∧
      (entity.item? "visible_scope" = some item ↔ s.hasPropertyOverVariable name = false) ∧
      ((∃ v ∈ s.context.declarations.visibleVariables s.context.declContext s.context.caret,
          v.name = name ∧ v.kind ≠ .field) →
        ∃ v, s.ownVariable? name = some v ∧ entity = .variable v ∧ v.kind ≠ .field) ∧
      (∀ v, s.ownVariable? name = some v → entity = .variable v) ∧
      ∀ p, s.ownVariable? name = none → s.ownProperty? name = some p → entity = .property p := by
  intro name
  have plain : item.category.isMethod = false := by
    simp only [List.mem_cons, List.not_mem_nil, or_false] at value
    rcases value with is | is | is <;> rw [is] <;> rfl
  obtain ⟨entity, means, shown⟩ := exists_entity_of_find? plain (CandidateSet.find?_of_mem_ofList listed plain)
  refine ⟨entity, fun _ => means, localHead?_name means, shown, ?_, entity?_of_own means⟩
  rintro ⟨v, visible, named, isLocal⟩
  obtain ⟨first, isFirst, kind⟩ := kind_of_ownVariable? visible named isLocal
  exact ⟨first, isFirst, (entity?_of_own means).1 first isFirst, kind⟩

/-- A class with a base class in the same source, up to the caret in a property. -/
def crateCode : List Char :=
  "class Box \x7b public int size, lid; \x7d class Crate : Box \x7b string lid; long size \x7b get \x7b ".toList

def crateScope : Scope :=
  { catalog := ⟨{}, []⟩, context := Context.of crateCode crateCode.length, nonPublic := false }

def crateRegion : TypeRegion := ⟨36, 55, 86, "Crate", ["Box"], false⟩

theorem inherited_crateScope :
    crateScope.context.inherited =
      { vars := [⟨"size", "int", ⟨55, 86⟩, false, .field, none⟩, ⟨"lid", "int", ⟨55, 86⟩, false, .field, none⟩] } := by
  have region : crateScope.context.region = some crateRegion := by decide +kernel
  have found : typeNamed crateScope.context.text (simpleBaseName "Box") = some ⟨0, 11, 34, "Box", [], false⟩ := by
    decide +kernel
  calc
    crateScope.context.inherited =
        (crateScope.context.region.map (inheritedDeclarations crateScope.context.text)).getD {} := rfl
    _ = inheritedDeclarations crateScope.context.text crateRegion := by rw [region]; rfl
    _ = _ := inheritedDeclarations_of_one rfl found (by decide +kernel) rfl
    _ = _ := by decide +kernel

theorem entity?_of_mem_declaredItems_lid :
    let shown : Item := (Item.named "lid" .field "visible_scope").withTooltip "string lid"
    shown ∈ merged crateScope.declaredItems ∧ shown.category ∈ [.field, .localVariable, .property] ∧
      ∃ entity, crateScope.entity? { name := "lid" } = some entity ∧ entity.item? "visible_scope" = some shown := by
  intro shown
  have listed : shown ∈ merged crateScope.declaredItems := by
    rw [declaredItems, inherited_crateScope]
    decide +kernel
  have value : shown.category ∈ [.field, .localVariable, .property] := by decide
  obtain ⟨entity, means, _, same, _⟩ := entity?_of_mem_declaredItems listed value
  refine ⟨listed, value, entity, means 0, same.mpr ?_⟩
  decide +kernel

/-- A property with the name of an inherited field: the list shows the field, a chain starts at the
property. -/
theorem property_over_inherited_field_is_listed_as_field :
    let shown : Item := (Item.named "size" .field "visible_scope").withTooltip "int size"
    let p : Property := ⟨"size", "long", false, ⟨73, 86⟩⟩
    shown ∈ merged crateScope.declaredItems ∧ crateScope.entity? { name := "size" } = some (.property p) ∧
      (Entity.property p).item? "visible_scope" ≠ some shown := by
  refine ⟨?_, by decide +kernel, by decide +kernel⟩
  rw [declaredItems, inherited_crateScope]
  decide +kernel

end Scope

end Typeahead.Lookup
