import Typeahead.Lookup.Head
import Typeahead.Proofs.Lookup.Navigation
import Typeahead.Proofs.Restriction.Members

namespace Typeahead.Lookup

open Catalog Source

/-- Whether a hop reaches a method with that many parameters behind the receiver. An extension method has the
receiver for its first one. -/
def Hop.takes (count : Nat) : Hop → Bool
  | .member found => found.member.kind == .method && found.member.parameters.length == count
  | .extensionMethod found => found.member.kind == .method && found.member.parameters.length == count + 1
  | .nested _ | .missing => false

/-- Whether a member of the declaring type is a form of the method that has been found. -/
def isFormOf (found : Found) (m : MemberInfo) : Bool :=
  m.kind == .method && m.name == found.member.name && m.isStatic == found.member.isStatic

/-- The forms of what a name means among which a call chooses: of a method those that its declaring type
declares itself, static or not as it is, and of anything else that alone. -/
def Hop.forms : Hop → List Hop
  | .member found =>
    if found.member.kind = .method then
      (found.declaring.info.members.filter (isFormOf found)).map fun m => .member { found with member := m }
    else [.member found]
  | other => [other]

/-- The first form that takes the arguments, or else what the name means. -/
def Hop.chosen (count : Nat) (hop : Hop) : Hop := (hop.forms.find? (·.takes count)).getD hop

/-- The item that shows what a hop reaches. -/
def Hop.item? : Hop → Option Item
  | .member found => some (found.member.item false)
  | .nested info => some info.item
  | .extensionMethod found => some (found.member.item true)
  | .missing => none

namespace Scope

/-- What a name means where it is called. -/
def callee (s : Scope) (t : ResolvedType) (name : String) (mode : BindingMode) (nonPublic : Bool) : Hop :=
  match s.catalog.findMember? t name mode nonPublic with
  | some found => .member found
  | none =>
    if mode = .typeStatics then .missing
    else
      match findExtension? s.importedTypes name with
      | some found => .extensionMethod found
      | none => .missing

/-- The listed methods of a name that the type and its bases declare. -/
def memberForms (s : Scope) (t : ResolvedType) (name : String) (mode : BindingMode) (nonPublic : Bool) : List Hop :=
  (s.catalog.numberedAncestry t).flatMap fun (depth, ancestor) =>
    ((ancestor.info.members.filter (lists t.info mode nonPublic false depth)).filter fun m =>
      m.name == name && m.kind == .method).map fun m => .member ⟨m, ancestor⟩

/-- The listed extension methods of a name. -/
def extensionForms (s : Scope) (t : ResolvedType) (name : String) : List Hop :=
  (s.importedTypes.filter (·.isExtensionContainer)).flatMap fun container =>
    ((container.members.filter fun m =>
      m.kind == .method && m.isStatic && m.isExtension && m.access == .publicAccess &&
        takes t (s.catalog.supertypeNames t) m).filter (·.name == name)).map fun m =>
          .extensionMethod ⟨m, { info := container }⟩

/-- The methods of a name that a list merges into one item. -/
def overloads (s : Scope) (t : ResolvedType) (name : String) (mode : BindingMode) (nonPublic : Bool) : List Hop :=
  s.memberForms t name mode nonPublic ++ if mode = .typeStatics then [] else s.extensionForms t name

/-- The methods of a name that are declared in the code, those of base types in the file last. -/
def declaredForms (s : Scope) (name : String) : List Method :=
  let context := s.context.declContext
  (s.context.declarations.methodsIn context ++ s.context.inherited.methodsIn context).filter (·.name == name)

/-- The type behind a hop is that of an overload with as many parameters as there are arguments. -/
def AnswersCall (s : Scope) (t : ResolvedType) (name : String) (mode : BindingMode) (nonPublic : Bool) (count : Nat)
    (hop : Hop) : Prop :=
  ∃ form, (form = hop ∨ form ∈ s.overloads t name mode nonPublic) ∧ form.takes count = true ∧
    s.land t form = s.land t hop

variable {s : Scope} {t : ResolvedType} {name : String} {mode : BindingMode} {nonPublic : Bool} {count : Nat}
  {seg : Segment}

/-- A list shows methods alone under the category of a method: constructors are hidden. -/
theorem isMethod_category_of_lists {receiver : TypeInfo} {depth : Nat} {m : MemberInfo}
    (shown : lists receiver mode nonPublic false depth m = true) :
    (m.item false).category.isMethod = (m.kind == .method) := by
  have visible : m.isHidden = false := by
    simp only [lists, Bool.and_eq_true, Bool.not_eq_true'] at shown
    exact shown.1.1.1.1.2
  have category : (m.item false).category = m.category false := rfl
  rw [category, MemberInfo.category]
  cases isKind : m.kind with
  | constructor => simp [MemberInfo.isHidden, isKind] at visible
  | field => cases m.isLiteral <;> rfl
  | property | method | event => rfl

theorem isMethod_category_type (info : TypeInfo) : info.item.category.isMethod = false := by
  have category : info.item.category = info.kind.category := rfl
  rw [category]
  cases info.kind <;> rfl

/-- The items of the forms that some members have are the method items of the name among those of the members. -/
theorem items_forms {members : List MemberInfo} {form : MemberInfo → Hop} {asExtension : Bool}
    {named : MemberInfo → Bool} (item : ∀ m, (form m).item? = some (m.item asExtension))
    (shown : ∀ m ∈ members,
      ((m.item asExtension).isNamed name && (m.item asExtension).category.isMethod) = named m) :
    ((members.filter named).map form).filterMap Hop.item? =
      (members.map (·.item asExtension)).filter fun item => item.isNamed name && item.category.isMethod := by
  have items : Hop.item? ∘ form = some ∘ fun m => m.item asExtension := funext item
  rw [List.filterMap_map, items, List.filterMap_eq_map, List.filter_map]
  exact congrArg (List.map _) (List.filter_congr shown).symm

theorem items_memberForms (s : Scope) (t : ResolvedType) (name : String) (mode : BindingMode) (nonPublic : Bool) :
    (s.memberForms t name mode nonPublic).filterMap Hop.item? =
      (s.catalog.memberItems t mode nonPublic false).filter
        fun item => item.isNamed name && item.category.isMethod := by
  rw [memberForms, memberItems, List.filterMap_flatMap, List.filter_flatMap]
  refine congrArg (List.flatMap · (s.catalog.numberedAncestry t)) (funext fun numbered => ?_)
  obtain ⟨depth, ancestor⟩ := numbered
  have shown (m : MemberInfo) (inside : m ∈ ancestor.info.members.filter (lists t.info mode nonPublic false depth)) :
      ((m.item false).isNamed name && (m.item false).category.isMethod) = (m.name == name && m.kind == .method) := by
    rw [isMethod_category_of_lists (List.mem_filter.mp inside).2]
    rfl
  exact items_forms (fun _ => rfl) shown

theorem items_extensionForms (s : Scope) (t : ResolvedType) (name : String) :
    (s.extensionForms t name).filterMap Hop.item? =
      (s.catalog.extensionItems s.importedTypes t).filter fun item => item.isNamed name && item.category.isMethod := by
  rw [extensionForms, extensionItems, List.filterMap_flatMap, List.filter_flatMap]
  refine congrArg (List.flatMap · (s.importedTypes.filter (·.isExtensionContainer))) (funext fun container => ?_)
  have shown (m : MemberInfo) (inside : m ∈ container.members.filter fun m =>
      m.kind == .method && m.isStatic && m.isExtension && m.access == .publicAccess &&
        takes t (s.catalog.supertypeNames t) m) :
      ((m.item true).isNamed name && (m.item true).category.isMethod) = (m.name == name) := by
    have isMethod : m.kind = .method := by
      have kept := (List.mem_filter.mp inside).2
      simp only [Bool.and_eq_true, beq_iff_eq] at kept
      exact kept.1.1.1.1
    have category : (m.item true).category = .extensionMethod := by
      change m.category true = _
      simp [MemberInfo.category, isMethod]
    rw [category, Category.isMethod, Bool.and_true]
    rfl
  exact items_forms (fun _ => rfl) shown

/-- The overloads are the method items of the name that a list merges into one. -/
theorem items_overloads (s : Scope) (t : ResolvedType) (name : String) (mode : BindingMode) (nonPublic : Bool) :
    (s.overloads t name mode nonPublic).filterMap Hop.item? =
      (s.catalog.reachableItems t mode nonPublic false ++
        if mode = .typeStatics then [] else s.catalog.extensionItems s.importedTypes t).filter
          fun item => item.isNamed name && item.category.isMethod := by
  rw [overloads, reachableItems, List.filterMap_append, List.filter_append, List.filter_append, items_memberForms]
  by_cases statics : mode = .typeStatics
  · simp only [statics, if_true, List.filterMap_nil, List.filter_nil, List.append_nil]
    refine (List.append_right_eq_self.mpr (List.filter_eq_nil_iff.mpr ?_)).symm
    rintro _ inside
    obtain ⟨info, _, rfl⟩ := List.mem_map.mp inside
    simp [isMethod_category_type]
  · simp [statics, items_extensionForms]

theorem chosen_of_forms_eq {hop : Hop} (alone : hop.forms = [hop]) : hop.chosen count = hop := by
  rw [Hop.chosen, alone, List.find?_singleton]
  split <;> rfl

/-- A method that is called is taken in the form that the call selects. -/
theorem chosen_member (found : Found) (called : seg.argumentCount = some count) :
    (Hop.member found).chosen count = .member (selectOverload found seg) := by
  by_cases isMethod : found.member.kind = .method
  · have same (m : MemberInfo) :
        decide (isFormOf found m = true ∧ (Hop.member { found with member := m }).takes count = true) =
          (isFormOf found m && m.parameters.length == count) := by
      rw [Bool.eq_iff_iff]
      simp only [isFormOf, Hop.takes, decide_eq_true_eq, Bool.and_eq_true]
      exact ⟨fun ⟨form, _, length⟩ => ⟨form, length⟩, fun ⟨form, length⟩ => ⟨form, form.1.1, length⟩⟩
    let fits (m : MemberInfo) : Bool := isFormOf found m && m.parameters.length == count
    have selected : selectOverload found seg =
        ⟨(found.declaring.info.members.find? fits).getD found.member, found.declaring⟩ := by
      rw [selectOverload, called]
      exact if_pos isMethod
    rw [selected, Hop.chosen, Hop.forms, if_pos isMethod, List.find?_map, List.find?_filter]
    simp only [Function.comp_apply, same]
    cases List.find? _ found.declaring.info.members <;> rfl
  · have selected : selectOverload found seg = found := by
      rw [selectOverload, called]
      exact if_neg isMethod
    rw [selected, chosen_of_forms_eq (by simp [Hop.forms, isMethod])]

/-- A call takes the chosen form of what its name means. -/
theorem hop_of_call (called : seg.argumentCount = some count) :
    s.hop t seg mode nonPublic = (s.callee t seg.name mode nonPublic).chosen count := by
  have notPlain : seg.isPlain = false := by simp [Segment.isPlain, called]
  unfold hop callee
  cases s.catalog.findMember? t seg.name mode nonPublic with
  | some found => exact (chosen_member found called).symm
  | none =>
    by_cases statics : mode = .typeStatics
    · simp [statics, notPlain, chosen_of_forms_eq (rfl : Hop.missing.forms = [.missing])]
    · cases findExtension? s.importedTypes seg.name with
      | none => simp [statics, chosen_of_forms_eq (rfl : Hop.missing.forms = [.missing])]
      | some found =>
        have alone : (Hop.extensionMethod found).forms = [.extensionMethod found] := rfl
        simp [statics, chosen_of_forms_eq alone]

/-- What a name means is one of its own forms. -/
theorem callee_mem_forms : s.callee t name mode nonPublic ∈ (s.callee t name mode nonPublic).forms := by
  cases here : s.catalog.findMember? t name mode nonPublic with
  | some found =>
    have means : s.callee t name mode nonPublic = .member found := by simp [callee, here]
    obtain ⟨_, _, declared, _⟩ := mem_of_findMember? here
    rw [means, Hop.forms]
    split
    · next isMethod =>
      refine List.mem_map.mpr ⟨found.member, List.mem_filter.mpr ⟨declared, ?_⟩, rfl⟩
      simp [isFormOf, isMethod]
    · exact List.mem_singleton_self _
  | none =>
    have means : (s.callee t name mode nonPublic).forms = [s.callee t name mode nonPublic] := by
      rw [callee, here]
      simp only
      split
      · rfl
      · split <;> rfl
    rw [means]
    exact List.mem_singleton_self _

theorem takes_chosen {hop : Hop} (own : hop ∈ hop.forms) :
    (hop.chosen count).takes count = true ↔ ∃ form ∈ hop.forms, form.takes count = true := by
  unfold Hop.chosen
  cases found : hop.forms.find? (·.takes count) with
  | some form => exact ⟨fun fits => ⟨form, List.mem_of_find?_eq_some found, fits⟩, fun _ => List.find?_some found⟩
  | none =>
    have unfit := List.find?_eq_none.mp found
    refine ⟨fun fits => absurd fits (unfit hop own), ?_⟩
    rintro ⟨form, inside, fits⟩
    exact absurd fits (unfit form inside)

theorem chosen_eq_self {hop : Hop} (unfit : ¬ ∃ form ∈ hop.forms, form.takes count = true) :
    hop.chosen count = hop := by
  have none : hop.forms.find? (·.takes count) = none :=
    List.find?_eq_none.mpr fun form inside fits => unfit ⟨form, inside, fits⟩
  rw [Hop.chosen, none, Option.getD_none]

/-- Which overload a call takes. The type behind a called segment is that of an overload with as many parameters
as the call has arguments exactly if one of the forms that stand beside what its name means has so many, or by
chance, if what the name means has the type of such an overload. The type of a called head is that of the first
method of the name that is declared in the code, however many parameters it has. -/
theorem type_of_call (s : Scope) {seg : Segment} {count : Nat} (called : seg.argumentCount = some count) :
    (∀ (t : ResolvedType) (mode : BindingMode) (nonPublic : Bool),
        let callee := s.callee t seg.name mode nonPublic
        s.AnswersCall t seg.name mode nonPublic count (s.hop t seg mode nonPublic) ↔
          (∃ form ∈ callee.forms, form.takes count = true) ∨
            ∃ form ∈ s.overloads t seg.name mode nonPublic, form.takes count = true ∧
              s.land t form = s.land t callee) ∧
      (s.entity? seg).map (s.entityType s.variableType) =
        (s.declaredForms seg.name).head?.map fun first => .ofType? (s.resolve? first.returnType) := by
  refine ⟨fun t mode nonPublic => ?_, ?_⟩
  · intro callee
    rw [hop_of_call called]
    have fits : (callee.chosen count).takes count = true ↔ ∃ form ∈ callee.forms, form.takes count = true :=
      takes_chosen callee_mem_forms
    by_cases some : ∃ form ∈ callee.forms, form.takes count = true
    · exact ⟨fun _ => .inl some, fun _ => ⟨callee.chosen count, .inl rfl, fits.mpr some, rfl⟩⟩
    · have unfit : (callee.chosen count).takes count = true → False := some ∘ fits.mp
      rw [chosen_eq_self some] at unfit ⊢
      refine ⟨?_, ?_⟩
      · rintro ⟨form, rfl | inside, takes, same⟩
        · exact absurd takes unfit
        · exact .inr ⟨form, inside, takes, same⟩
      · rintro (takes | ⟨form, inside, takes, same⟩)
        · exact absurd takes some
        · exact ⟨form, .inr inside, takes, same⟩
  · have first : s.entity? seg = (s.declaredForms seg.name).head?.map .method := by
      simp only [entity?, called, Option.isSome_some, if_true, declaredForms, Declarations.findMethod?,
        List.head?_filter, List.find?_append]
    rw [first, Option.map_map]
    rfl

/-- Two types without members that tell overloads apart. -/
def near : TypeInfo := { namespaceName := some "Acme", name := "Near", kind := .classType }

def far : TypeInfo := { namespaceName := some "Acme", name := "Far", kind := .classType }

/-- A type with two overloads of a method, of which its base declares a third one. -/
def newReel : TypeInfo :=
  { namespaceName := some "Acme", name := "NewReel", kind := .classType, baseType := some "Acme.Reel"
    members := [
      { name := "Get", kind := .method, typeName := "Acme.Near" },
      { name := "Get", kind := .method, typeName := "Acme.Far"
        parameters := [⟨"turns", "Acme.Far"⟩, ⟨"speed", "Acme.Far"⟩] }] }

def reel : TypeInfo :=
  { namespaceName := some "Acme", name := "Reel", kind := .classType
    members := [{ name := "Get", kind := .method, typeName := "Acme.Far", parameters := [⟨"turns", "Acme.Far"⟩] }] }

/-- Two overloads of an extension method of it. -/
def reelTools : TypeInfo :=
  { namespaceName := some "Acme", name := "ReelTools", kind := .classType, isExtensionContainer := true
    members := [
      { name := "Wind", kind := .method, typeName := "Acme.Near", parameters := [⟨"reel", "Acme.Reel"⟩]
        isStatic := true, isExtension := true },
      { name := "Wind", kind := .method, typeName := "Acme.Far"
        parameters := [⟨"reel", "Acme.Reel"⟩, ⟨"turns", "Acme.Far"⟩], isStatic := true, isExtension := true }] }

def reelAssembly : Assembly := ⟨"Acme", [near, far, newReel, reel, reelTools]⟩

/-- Two declarations of a method, and the body of the second. -/
def reelCode : List Char := "using Acme; class Shed \x7b Near Pick() \x7b \x7d Far Pick(Far turns) \x7b ".toList

def reelScope : Scope :=
  { catalog := ⟨{ workspace := ["Acme"] }, [.memory [reelAssembly]]⟩
    context := Context.of reelCode 63
    nonPublic := false }

/-- The call of a name with some arguments. -/
def callOf (name : String) (count : Nat) : Segment := { name, argumentCount := some count }

theorem type_of_call_reel :
    (callOf "Get" 2).argumentCount = some 2 ∧ (callOf "Pick" 1).argumentCount = some 1 ∧
      reelScope.AnswersCall { info := newReel } "Get" .instanceMembers false 2
        (reelScope.hop { info := newReel } (callOf "Get" 2) .instanceMembers false) ∧
      (reelScope.entity? (callOf "Pick" 1)).map (reelScope.entityType reelScope.variableType) =
        some (.type { info := near }) := by
  refine ⟨rfl, rfl, ?_, ?_⟩
  · exact ((type_of_call reelScope (rfl : (callOf "Get" 2).argumentCount = some 2)).1 _ _ _).mpr
      (.inl (by decide +kernel))
  · exact (type_of_call reelScope (rfl : (callOf "Pick" 1).argumentCount = some 1)).2.trans (by decide +kernel)

/-- A base type, a second extension method and a second declaration in the code each have a form with as many
parameters as the call has arguments, and the call has the type of a form with fewer. -/
theorem fewer_parameters_than_arguments :
    let type : ResolvedType := { info := newReel }
    let typeOf (name : String) := reelScope.land type (reelScope.hop type (callOf name 1) .instanceMembers false)
    let takesOne (name : String) := (reelScope.overloads type name .instanceMembers false).filter (·.takes 1)
    (typeOf "Get" = some ({ info := near }, .instanceMembers) ∧
        (takesOne "Get").map (reelScope.land type) = [some ({ info := far }, .instanceMembers)]) ∧
      (typeOf "Wind" = some ({ info := near }, .instanceMembers) ∧
        (takesOne "Wind").map (reelScope.land type) = [some ({ info := far }, .instanceMembers)]) ∧
      reelScope.localHead? (callOf "Pick" 1) = some (.type { info := near }) ∧
      ∃ form ∈ reelScope.declaredForms "Pick", form.parameters.length = 1 ∧ form.returnType = "Far" := by
  intro type typeOf takesOne
  have second : ⟨"Pick", "Far", false, ⟨41, 63⟩, [⟨"Far", "turns"⟩]⟩ ∈
      reelScope.context.declarations.methodsIn reelScope.context.declContext := by decide +kernel
  refine ⟨⟨?_, ?_⟩, ⟨?_, ?_⟩, ?_, _, List.mem_filter.mpr ⟨List.mem_append_left _ second, rfl⟩, rfl, rfl⟩ <;>
    decide +kernel

end Scope

end Typeahead.Lookup
