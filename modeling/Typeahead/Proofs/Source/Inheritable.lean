import Typeahead.Proofs.Source.Expression
import Typeahead.Source.Context

namespace Typeahead.Source

/-- A place where the scan of a body begins a member: the first token and all that follow it. -/
structure MemberText where
  first : Token
  later : List Token

/-- The members of a body in order, as the scan divides it. -/
def membersOf (scope : BodyScope) : List Token → List MemberText
  | [] => []
  | t :: ts => ⟨t, ts⟩ :: membersOf scope (memberFrom scope t ts).2
termination_by ts => ts.length
decreasing_by exact memberFrom_length_lt scope t ts

namespace MemberText

def declared (scope : BodyScope) (m : MemberText) : Declarations := (memberFrom scope m.first m.later).1

/-- The modifiers that a member begins with. -/
def modifiers (m : MemberText) : List String :=
  ((m.first :: m.later).takeWhile fun t => t.word?.any modifierWords.contains).filterMap Token.word?

/-- The member is marked as one that other types may use. -/
def isAccessible (m : MemberText) : Bool := m.modifiers.any ["public", "protected", "internal"].contains

/-- The name behind the modifiers and the type, if a name stands there; constructors and nested types have none. -/
def name? (m : MemberText) : Option String :=
  let body := dropWords modifierWords (m.first :: m.later)
  if (nextWord? body).any nestedTypeWords.contains then none
  else
    match readType? body with
    | none => none
    | some (_, named) => if nextIs '(' named then none else nextName? named

end MemberText

def Declarations.fields (ds : Declarations) : List Variable := ds.vars.filter (·.kind == .field)

/-- Every name that a member bears: the one behind its type, and those of its other declarators. -/
def MemberText.names (scope : BodyScope) (m : MemberText) : List String :=
  m.name?.toList ++ (m.declared scope).fields.map (·.name)

/-- What the accessible ones of some members declare, locals and parameters left out. -/
def accessibleDeclarations (scope : BodyScope) (members : List MemberText) : Declarations :=
  let accessible := members.filter (·.isAccessible)
  { vars := accessible.flatMap fun m => (m.declared scope).fields
    methods := accessible.flatMap fun m => (m.declared scope).methods
    properties := accessible.flatMap fun m => (m.declared scope).properties }

/-- The names of the other members. -/
def hiddenNames (scope : BodyScope) (members : List MemberText) : List String :=
  (members.filter (!·.isAccessible)).flatMap (·.names scope)

namespace Declarations

def names (ds : Declarations) : List String :=
  ds.vars.map (·.name) ++ ds.methods.map (·.name) ++ ds.properties.map (·.name)

/-- The declarations whose names are not among some names. -/
def without (names : List String) (ds : Declarations) : Declarations :=
  { ds with
    vars := ds.vars.filter fun v => !names.contains v.name
    methods := ds.methods.filter fun m => !names.contains m.name
    properties := ds.properties.filter fun p => !names.contains p.name }

theorem fields_append (a b : Declarations) : (a ++ b).fields = a.fields ++ b.fields :=
  List.filter_append a.vars b.vars

theorem kind_of_mem_inheritable {ds : Declarations} {v : Variable} (kept : v ∈ ds.inheritable.vars) :
    v.kind = .field := by
  obtain ⟨-, isField⟩ := List.mem_filter.mp kept
  simp only [Bool.and_eq_true, beq_iff_eq] at isField
  exact isField.1

/-- Declarations one after the other, seen through one of the lists that they hold. -/
theorem flatMap_of_foldr {α : Type} (part : Declarations → List α) (empty : part {} = [])
    (append : ∀ a b : Declarations, part (a ++ b) = part a ++ part b) (parts : List Declarations) :
    part (parts.foldr (· ++ ·) {}) = parts.flatMap part := by
  induction parts with
  | nil => exact empty
  | cons ds parts ih => rw [List.foldr_cons, append, ih, List.flatMap_cons]

theorem without_eq_self_iff (ds : Declarations) (names : List String) :
    ds.without names = ds ↔ ∀ name ∈ names, name ∉ ds.names := by
  have apart : (∀ name ∈ names, name ∉ ds.names) ↔ (∀ v ∈ ds.vars, v.name ∉ names) ∧
      (∀ m ∈ ds.methods, m.name ∉ names) ∧ ∀ p ∈ ds.properties, p.name ∉ names := by
    simp only [Declarations.names, List.mem_append, List.mem_map]
    grind
  rw [apart]
  obtain ⟨vars, methods, properties, bodies, privateNames⟩ := ds
  simp [without]

end Declarations

/-- One of the lists of what a type inherits, base by base. -/
theorem part_inheritedDeclarations {α : Type} {text : List Char} {heir : TypeRegion} (part : Declarations → List α)
    (empty : part {} = []) (append : ∀ a b : Declarations, part (a ++ b) = part a ++ part b) :
    part (inheritedDeclarations text heir) = (inheritedRegions text heir).flatMap fun base =>
      part ((Declarations.ofType text base).inheritable.withSpan (Span.of heir.bodyStart heir.stop)) := by
  rw [inheritedDeclarations, Declarations.flatMap_of_foldr part empty append, List.flatMap_map]

section Member

variable (scope : BodyScope)

/-- A constructor's parameters and locals are no members, and no more than a method's do they note a name. -/
theorem methodFrom_spec (scan : Scan) (isStatic : Bool) (head : Option MethodHead) (ts : List Token) :
    (methodFrom scan isStatic head ts).1.fields = [] ∧ (methodFrom scan isStatic head ts).1.properties = [] ∧
      (methodFrom scan isStatic head ts).1.privateNames = [] ∧
      (methodFrom scan isStatic head ts).1.methods.map (·.name) = (head.map (·.name)).toList := by
  have none := filter_field_methodBody scan isStatic (fromBody (afterCloser .paren ts))
  unfold methodFrom
  simp only [Declarations.fields_append, Declarations.properties_append, Declarations.privateNames_append,
    Declarations.methods_append]
  cases (methodBody scan isStatic (fromBody (afterCloser .paren ts))).span <;> cases head <;>
    simp [Declarations.fields, List.filter_map, Function.comp_def, none]

theorem filter_field_fieldsFrom (shared : FieldScope) (ts : List Token) :
    (fieldsFrom shared ts).1.filter (·.kind == .field) = (fieldsFrom shared ts).1 := by
  fun_induction fieldsFrom shared ts with
  | case1 | case2 => rfl
  | case3 t ts name _ later _ fields rest eq ih =>
    rw [eq] at ih
    rw [List.filter_cons, ih]
    rfl
  | case4 => rfl

/-- A named member declares methods and properties of its name alone, and notes its fields if it is private. -/
theorem namedMember_spec (head : MemberHead) (name : String) (named skip : List Token) :
    (∀ m ∈ (namedMember scope head name named skip).1.methods, m.name = name) ∧
      (∀ p ∈ (namedMember scope head name named skip).1.properties, p.name = name) ∧
      (namedMember scope head name named skip).1.privateNames =
        if head.isPrivate then (namedMember scope head name named skip).1.fields.map (·.name) else [] := by
  unfold namedMember
  simp only
  split
  · simp [Declarations.fields]
  · next t ts _ =>
    split
    · obtain ⟨fields, properties, privateNames, methods⟩ :=
        methodFrom_spec scope.scan head.isStatic (some ⟨name, head.typeName, head.start⟩) ts
      refine ⟨fun m member => ?_, by simp [properties], by simp [privateNames, fields]⟩
      have listed := List.mem_map_of_mem (f := Method.name) member
      rw [methods] at listed
      simpa using listed
    · split
      · simp [Declarations.fields, filter_field_blockLocals]
      · split
        · simp [Declarations.fields]
        · split
          · simp [Declarations.fields, filter_field_fieldsFrom]
          · simp [Declarations.fields]

/-- A member without a name declares nothing that could be inherited and notes no name; one with a name is read
from its name on. -/
theorem declared_cases (m : MemberText) :
    (m.name? = none ∧ (m.declared scope).fields = [] ∧ (m.declared scope).methods = [] ∧
        (m.declared scope).properties = [] ∧ (m.declared scope).privateNames = []) ∨
      ∃ head name named skip, m.name? = some name ∧ head.isPrivate = !m.isAccessible ∧
        m.declared scope = { privateNames := if head.isPrivate then [name] else [] } ++
          (namedMember scope head name named skip).1 := by
  obtain ⟨t, ts⟩ := m
  have ofMark {c : Char} (isMark : t.lexeme = .mark c) : MemberText.name? ⟨t, ts⟩ = none := by
    have ends : (nextWord? (t :: ts)).any modifierWords.contains = false := by simp [nextWord?_mark isMark]
    simp [MemberText.name?, dropWords_of_ends ends, nextWord?_mark isMark, readType?_mark isMark]
  by_cases square : t.isMark '[' = true
  · have isMark : t.lexeme = .mark '[' := lexeme_of_isMark square
    have nothing : MemberText.declared scope ⟨t, ts⟩ = {} := by simp [MemberText.declared, memberFrom, square]
    exact .inl ⟨ofMark isMark, by simp [nothing, Declarations.fields]⟩
  · cases spelled : t.lexeme with
    | mark c =>
      have nothing : MemberText.declared scope ⟨t, ts⟩ = {} := by
        simp [MemberText.declared, memberFrom, square, spelled]
      exact .inl ⟨ofMark spelled, by simp [nothing, Declarations.fields]⟩
    | word _ | number _ =>
      simp only [MemberText.declared, memberFrom, MemberText.name?, spelled, if_neg square]
      by_cases nested : (nextWord? (dropWords modifierWords (t :: ts))).any nestedTypeWords.contains = true
      · simp only [if_pos nested]
        exact .inl (by simp [Declarations.fields])
      · simp only [if_neg nested]
        cases readType? (dropWords modifierWords (t :: ts)) with
        | none => exact .inl ⟨rfl, rfl, rfl, rfl, rfl⟩
        | some read =>
          obtain ⟨written, named⟩ := read
          by_cases opening : nextIs '(' named = true
          · simp only [if_pos opening]
            obtain ⟨fields, properties, privateNames, methods⟩ := methodFrom_spec scope.scan _ none (named.drop 1)
            exact .inl ⟨trivial, fields, List.map_eq_nil_iff.mp methods, properties, privateNames⟩
          · simp only [if_neg opening]
            cases nextName? named with
            | none => exact .inl ⟨rfl, rfl, rfl, rfl, rfl⟩
            | some name => exact .inr ⟨_, name, named, _, rfl, rfl, rfl⟩

theorem privateNames_declared (m : MemberText) :
    (m.declared scope).privateNames = if m.isAccessible then [] else m.names scope := by
  obtain ⟨unnamed, fields, -, -, privateNames⟩ | ⟨head, name, named, skip, isName, isPrivate, declared⟩ :=
    declared_cases scope m
  · simp [privateNames, MemberText.names, unnamed, fields]
  · obtain ⟨-, -, noted⟩ := namedMember_spec scope head name named skip
    have fields : (m.declared scope).fields = (namedMember scope head name named skip).1.fields := by
      rw [declared]
      exact Declarations.fields_append _ _
    rw [MemberText.names, fields, declared, Declarations.privateNames_append, noted, isPrivate, isName]
    cases m.isAccessible <;> rfl

/-- A member bears the names of all that it declares. -/
theorem names_declared (m : MemberText) :
    (∀ v ∈ (m.declared scope).fields, v.name ∈ m.names scope) ∧
      (∀ f ∈ (m.declared scope).methods, f.name ∈ m.names scope) ∧
      ∀ p ∈ (m.declared scope).properties, p.name ∈ m.names scope := by
  refine ⟨fun v member => List.mem_append_right _ (List.mem_map_of_mem member), ?_⟩
  obtain ⟨-, -, methods, properties, -⟩ | ⟨head, name, named, skip, isName, -, declared⟩ := declared_cases scope m
  · simp [methods, properties]
  · obtain ⟨methods, properties, -⟩ := namedMember_spec scope head name named skip
    have borne : name ∈ m.names scope := by simp [MemberText.names, isName]
    rw [declared]
    exact ⟨fun f member => methods f member ▸ borne, fun p member => properties p member ▸ borne⟩

end Member

section Members

variable (scope : BodyScope)

/-- A scan of a body declares what its members declare, one after the other. -/
theorem membersFrom_eq_members (ts : List Token) :
    membersFrom scope ts = ((membersOf scope ts).map (MemberText.declared scope)).foldr (· ++ ·) {} := by
  fun_induction membersOf scope ts with
  | case1 => rw [membersFrom]; rfl
  | case2 t ts ih => rw [membersFrom, ih]; rfl

theorem flatMap_privateNames_members (members : List MemberText) :
    members.flatMap (fun m => (m.declared scope).privateNames) = hiddenNames scope members := by
  induction members with
  | nil => rfl
  | cons m members ih =>
    rw [List.flatMap_cons, ih, privateNames_declared]
    cases opened : m.isAccessible <;> simp [hiddenNames, opened]

/-- Members whose names are all hidden leave nothing behind. -/
theorem filter_flatMap_accessible {α : Type} (declares : MemberText → List α) (name : α → String)
    {members : List MemberText} {hidden : List String}
    (covered : ∀ m ∈ members, m.isAccessible = false → ∀ a ∈ declares m, name a ∈ hidden) :
    (members.flatMap declares).filter (fun a => !hidden.contains (name a)) =
      ((members.filter (·.isAccessible)).flatMap declares).filter fun a => !hidden.contains (name a) := by
  induction members with
  | nil => rfl
  | cons m members ih =>
    have later := ih fun m' member => covered m' (.tail m member)
    rw [List.flatMap_cons, List.filter_append, later]
    cases opened : m.isAccessible with
    | true => rw [List.filter_cons_of_pos opened, List.flatMap_cons, List.filter_append]
    | false =>
      have none : (declares m).filter (fun a => !hidden.contains (name a)) = [] := by
        simpa using covered m (.head members) opened
      rw [none, List.filter_cons_of_neg (by simp [opened]), List.nil_append]

/-- What is inherited of a body comes from its accessible members, and lacks every name of the others. -/
theorem inheritable_membersFrom (ts : List Token) :
    (membersFrom scope ts).inheritable =
      (accessibleDeclarations scope (membersOf scope ts)).without (hiddenNames scope (membersOf scope ts)) := by
  have covered (m : MemberText) (member : m ∈ membersOf scope ts) (closed : m.isAccessible = false) :
      ∀ name ∈ m.names scope, name ∈ hiddenNames scope (membersOf scope ts) := fun name borne =>
    List.mem_flatMap.mpr ⟨m, List.mem_filter.mpr ⟨member, by simp [closed]⟩, borne⟩
  have part {α : Type} (part : Declarations → List α) (empty : part {} = [])
      (append : ∀ a b : Declarations, part (a ++ b) = part a ++ part b) :
      part (membersFrom scope ts) = (membersOf scope ts).flatMap fun m => part (m.declared scope) := by
    rw [membersFrom_eq_members, Declarations.flatMap_of_foldr part empty append, List.flatMap_map]
  have noted : (membersFrom scope ts).privateNames = hiddenNames scope (membersOf scope ts) := by
    rw [part Declarations.privateNames rfl Declarations.privateNames_append, flatMap_privateNames_members]
  have vars := filter_flatMap_accessible (fun m => (m.declared scope).fields) Variable.name
    fun m member closed v declared => covered m member closed _ ((names_declared scope m).1 v declared)
  have methods := filter_flatMap_accessible (fun m => (m.declared scope).methods) Method.name
    fun m member closed f declared => covered m member closed _ ((names_declared scope m).2.1 f declared)
  have properties := filter_flatMap_accessible (fun m => (m.declared scope).properties) Property.name
    fun m member closed p declared => covered m member closed _ ((names_declared scope m).2.2 p declared)
  rw [← part Declarations.fields rfl Declarations.fields_append] at vars
  rw [← part Declarations.methods rfl Declarations.methods_append] at methods
  rw [← part Declarations.properties rfl Declarations.properties_append] at properties
  rw [Declarations.fields, List.filter_filter] at vars
  simp only [Declarations.inheritable, noted, Declarations.without, accessibleDeclarations, ← vars, ← methods,
    ← properties, Bool.and_comm]

end Members

/-- The body around the members of a type. -/
def TypeRegion.bodyScope (text : List Char) (region : TypeRegion) : BodyScope :=
  ⟨⟨text, min region.stop (Text.utf8Length text)⟩, Span.of region.bodyStart region.stop, region.isStatic⟩

def TypeRegion.members (text : List Char) (region : TypeRegion) : List MemberText :=
  membersOf (region.bodyScope text)
    (tokensFrom region.bodyStart (Text.between region.bodyStart (min region.stop (Text.utf8Length text)) text))

/-- What is inherited of a type, for every text and every region: of what its members declare one after the other,
the fields, methods and properties of the members with an access modifier, without those that share a name with a
member that has none. So inheritance goes by the declarations alone exactly if no member without an access modifier
bears the name of a field, method or property that has one. -/
theorem Declarations.inheritable_ofType (text : List Char) (region : TypeRegion) :
    Declarations.ofType text region =
        ((region.members text).map (MemberText.declared (region.bodyScope text))).foldr (· ++ ·) {} ∧
      (Declarations.ofType text region).inheritable =
        (accessibleDeclarations (region.bodyScope text) (region.members text)).without
          (hiddenNames (region.bodyScope text) (region.members text)) ∧
      ((Declarations.ofType text region).inheritable =
          accessibleDeclarations (region.bodyScope text) (region.members text) ↔
        ∀ name ∈ hiddenNames (region.bodyScope text) (region.members text),
          name ∉ (accessibleDeclarations (region.bodyScope text) (region.members text)).names) ∧
      ∀ v ∈ (Declarations.ofType text region).inheritable.vars, v.kind = .field := by
  have inherits : (Declarations.ofType text region).inheritable =
      (accessibleDeclarations (region.bodyScope text) (region.members text)).without
        (hiddenNames (region.bodyScope text) (region.members text)) := inheritable_membersFrom _ _
  refine ⟨membersFrom_eq_members _ _, inherits, ?_, fun v => kind_of_mem_inheritable⟩
  rw [inherits, without_eq_self_iff]

/-- A type in which no two members share a name. -/
def plainText : List Char :=
  ("class B\x7bprotected int c;int s;public T P\x7bget;\x7d" ++
    "private void H()\x7b\x7dpublic void F()\x7bint l;\x7d\x7d").toList

def plainRegion : TypeRegion :=
  { start := 0, bodyStart := 8, stop := 87, name := "B", bases := [], isStatic := false }

theorem inheritable_ofType_plain :
    enclosingType plainText 8 = some plainRegion ∧
      hiddenNames (plainRegion.bodyScope plainText) (plainRegion.members plainText) = ["s", "s", "H"] ∧
      (Declarations.ofType plainText plainRegion).inheritable =
        { vars := [⟨"c", "int", ⟨8, 87⟩, false, .field, none⟩]
          methods := [⟨"F", "void", false, ⟨71, 86⟩, []⟩]
          properties := [⟨"P", "T", false, ⟨39, 45⟩⟩] } := by
  have hidden : hiddenNames (plainRegion.bodyScope plainText) (plainRegion.members plainText) = ["s", "s", "H"] := by
    decide +kernel
  have accessible : accessibleDeclarations (plainRegion.bodyScope plainText) (plainRegion.members plainText) =
      { vars := [⟨"c", "int", ⟨8, 87⟩, false, .field, none⟩]
        methods := [⟨"F", "void", false, ⟨71, 86⟩, []⟩]
        properties := [⟨"P", "T", false, ⟨39, 45⟩⟩] } := by decide +kernel
  obtain ⟨-, -, plain, -⟩ := Declarations.inheritable_ofType plainText plainRegion
  rw [hidden, accessible] at plain
  exact ⟨by decide +kernel, hidden, plain.mpr (by decide)⟩

/-- A public method with a private overload. -/
def overloadedText : List Char :=
  "class C \x7b public void M() \x7b \x7d private void M(int a) \x7b \x7d ".toList

def overloadedRegion : TypeRegion :=
  { start := 0, bodyStart := 9, stop := 56, name := "C", bases := [], isStatic := false }

/-- The private overload takes the public method with it. -/
theorem private_overload_hides_public_method :
    enclosingType overloadedText 10 = some overloadedRegion ∧
      (accessibleDeclarations (overloadedRegion.bodyScope overloadedText)
          (overloadedRegion.members overloadedText)).methods = [⟨"M", "void", false, ⟨17, 28⟩, []⟩] ∧
      (Declarations.ofType overloadedText overloadedRegion).inheritable.methods = [] := by
  decide +kernel

end Typeahead.Source
