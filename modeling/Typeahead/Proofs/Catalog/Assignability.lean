import Typeahead.Catalog.Members
import Typeahead.Proofs.Catalog.Inheritance

namespace Typeahead.Catalog

open Text

/-- A name that is reached from a type through base types and interfaces as they are declared. The way does not go
on behind the names that are closed. -/
inductive Reaches (c : Catalog) (closed : List String) (info : TypeInfo) : String → Prop
  | declared {name : String} : name ∈ declaredParents info → Reaches c closed info name
  | further {name parent : String} {next : TypeInfo} : Reaches c closed info name → name ∉ closed →
      c.findType? name = some next → parent ∈ declaredParents next → Reaches c closed info parent

/-- The type itself, the root of all types, or what is reached from the type. -/
def IsSupertype (c : Catalog) (closed : List String) (t : ResolvedType) (name : String) : Prop :=
  name = t.fullName ∨ name = objectType ∨ Reaches c closed t.info name

/-- The metadata say of the type and of the root of all types what assignability takes for granted: the type is
the one of its name, and the root derives from nothing. -/
structure Grounded (c : Catalog) (t : ResolvedType) : Prop where
  own : ∀ info, c.findType? t.fullName = some info → info = t.info
  root : ∀ info, c.findType? objectType = some info → declaredParents info = []

/-- A name that a generic parameter may bear: of name characters, and no word of the language. -/
structure IsParameterName (name : String) : Prop where
  named : ∃ dotted : DottedName, String.ofList dotted.text = name
  noAlias : TypeName.keywordAlias? name = none

/-- A first parameter that is assignable from the type: a generic parameter of the method, nullable or not, an
array if the type is one, or a supertype. -/
inductive Accepts (c : Catalog) (t : ResolvedType) (generics : List String) (written : TypeName) : Prop
  | parameter : written.text ∈ generics → Accepts c t generics written
  | nullableParameter {name : String} : name ∈ generics → written.text = name ++ "?" → Accepts c t generics written
  | array : written.isArray = true → t.element.isSome = true → Accepts c t generics written
  | supertype : written.isArray = false → IsSupertype c [] t written.canonicalBase → Accepts c t generics written

/-- A first parameter that takes the type. -/
inductive Takes (c : Catalog) (t : ResolvedType) (generics : List String) (written : TypeName) : Prop
  | parameter : written.canonicalBase ∈ generics → Takes c t generics written
  | array : written.isArray = true → t.element.isSome = true → Takes c t generics written
  | supertype : written.isArray = false → IsSupertype c [t.fullName, objectType] t written.canonicalBase →
      Takes c t generics written

/-- A public extension method. -/
structure IsPublicExtension (m : MemberInfo) : Prop where
  method : m.kind = .method
  isStatic : m.isStatic = true
  extension : m.isExtension = true
  isPublic : m.access = .publicAccess

/-- The method is among those offered for the type. -/
def offers (c : Catalog) (t : ResolvedType) (m : MemberInfo) : Bool :=
  m.kind == .method && m.isStatic && m.isExtension && m.access == .publicAccess && takes t (c.supertypeNames t) m

variable {c : Catalog} {met : List String} {info : TypeInfo} {name : String}

theorem mem_newNames {names : List String} : name ∈ newNames met names ↔ name ∈ names ∧ name ∉ met := by
  induction names generalizing met with
  | nil => simp [newNames]
  | cons first more ih =>
    unfold newNames
    by_cases known : first ∈ met
    · rw [if_pos (List.contains_iff_mem.mpr known), ih, List.mem_cons]
      refine ⟨And.imp_left .inr, ?_⟩
      rintro ⟨rfl | later, fresh⟩
      · exact absurd known fresh
      · exact ⟨later, fresh⟩
    · rw [if_neg (fun contains => known (List.contains_iff_mem.mp contains)), List.mem_cons, ih, List.mem_cons,
        List.mem_cons]
      by_cases same : name = first
      · simp [same, known]
      · simp [same]

theorem mem_meetNames {names : List String} : name ∈ meetNames met names ↔ name ∈ met ∨ name ∈ names := by
  induction names generalizing met with
  | nil => simp [meetNames]
  | cons first more ih =>
    have later := @ih (first :: met)
    simp only [meetNames, List.foldl_cons] at later ⊢
    rw [later, List.mem_cons, List.mem_cons]
    tauto

/-- Names that are closed later close no more than those that were closed at first. -/
theorem Reaches.mono {closed fewer : List String} (reaches : Reaches c closed info name) (subset : fewer ⊆ closed) :
    Reaches c fewer info name := by
  induction reaches with
  | declared parent => exact .declared parent
  | further _ opened found parent ih => exact .further ih (fun inside => opened (subset inside)) found parent

/-- What is reached from a declared parent is reached from the type. -/
theorem Reaches.of_declared {parent : String} {next : TypeInfo} {closed : List String}
    (isParent : parent ∈ declaredParents info) (opened : parent ∉ closed) (found : c.findType? parent = some next)
    (reaches : Reaches c closed next name) : Reaches c closed info name := by
  induction reaches with
  | declared later => exact .further (.declared isParent) opened found later
  | further _ still foundLater later ih => exact .further ih still foundLater later

/-- What is reached from the queue is met by the next turn of the search, or it is still reached from the queue
behind that turn. -/
theorem Reaches.met_or_queued {first : TypeInfo} {queue : List TypeInfo} (reaches : Reaches c met first name)
    (queued : first ∈ info :: queue) :
    let names := newNames met (declaredParents info)
    name ∈ meetNames met names ∨
      ∃ other ∈ queue ++ names.filterMap c.findType?, Reaches c (meetNames met names) other name := by
  intro names
  -- Induction on the way: a name that it passes is met in this turn, with its parents queued, or reached afterwards.
  induction reaches with
  | @declared parent isParent =>
    rcases List.mem_cons.mp queued with rfl | waiting
    · by_cases before : parent ∈ met
      · exact .inl (mem_meetNames.mpr (.inl before))
      · exact .inl (mem_meetNames.mpr (.inr (mem_newNames.mpr ⟨isParent, before⟩)))
    · exact .inr ⟨first, List.mem_append_left _ waiting, .declared isParent⟩
  | @further passed parent next _ opened found isParent ih =>
    by_cases now : passed ∈ meetNames met names
    · have fresh : passed ∈ names := (mem_meetNames.mp now).resolve_left opened
      have added : next ∈ names.filterMap c.findType? := List.mem_filterMap.mpr ⟨passed, fresh, found⟩
      exact .inr ⟨next, List.mem_append_right _ added, .declared isParent⟩
    · obtain ⟨other, waiting, still⟩ := ih.resolve_left now
      exact .inr ⟨other, waiting, .further still now found isParent⟩

/-- The search ends with the names met before it and all that is reached from its queue past the names met. -/
theorem mem_supertypeNamesFrom_iff (c : Catalog) (met : List String) (queue : List TypeInfo) :
    name ∈ c.supertypeNamesFrom met queue ↔ name ∈ met ∨ ∃ info ∈ queue, Reaches c met info name := by
  fun_induction supertypeNamesFrom c met queue with
  | case1 => simp
  | case2 met info queue names ih =>
    rw [ih]
    constructor
    · rintro (inside | ⟨other, queued, reaches⟩)
      · rcases mem_meetNames.mp inside with before | fresh
        · exact .inl before
        · exact .inr ⟨info, List.mem_cons_self, .declared (mem_newNames.mp fresh).1⟩
      · have sooner : Reaches c met other name := reaches.mono fun _ before => mem_meetNames.mpr (.inl before)
        rcases List.mem_append.mp queued with waiting | added
        · exact .inr ⟨other, List.mem_cons_of_mem _ waiting, sooner⟩
        · obtain ⟨parent, fresh, found⟩ := List.mem_filterMap.mp added
          obtain ⟨isParent, opened⟩ := mem_newNames.mp fresh
          exact .inr ⟨info, List.mem_cons_self, .of_declared isParent opened found sooner⟩
    · rintro (before | ⟨first, queued, reaches⟩)
      · exact .inl (mem_meetNames.mpr (.inl before))
      · exact reaches.met_or_queued queued

/-- The supertypes are the type, the root of all types and what is reached from the type. -/
theorem mem_supertypeNames_iff {t : ResolvedType} :
    name ∈ c.supertypeNames t ↔ IsSupertype c [t.fullName, objectType] t name := by
  have start {other : String} : other ∈ (if t.fullName = objectType then [objectType] else [objectType, t.fullName]) ↔
      other ∈ [t.fullName, objectType] := by
    by_cases isRoot : t.fullName = objectType
    · simp [isRoot]
    · simp [isRoot, or_comm]
  rw [supertypeNames, mem_supertypeNamesFrom_iff, IsSupertype, start, List.mem_cons, List.mem_singleton, or_assoc]
  refine or_congr_right (or_congr_right ?_)
  constructor
  · rintro ⟨info, inside, reaches⟩
    obtain rfl := List.mem_singleton.mp inside
    exact reaches.mono fun _ => start.mpr
  · exact fun reaches => ⟨t.info, List.mem_singleton_self _, reaches.mono fun _ => start.mp⟩

/-- Where the metadata are grounded, no name is closed for what is reached: the way from the type itself begins
anew, and behind the root of all types there is none. -/
theorem Grounded.isSupertype_iff {t : ResolvedType} (grounded : Grounded c t) :
    IsSupertype c [t.fullName, objectType] t name ↔ IsSupertype c [] t name := by
  refine ⟨Or.imp_right (Or.imp_right (·.mono (List.nil_subset _))), ?_⟩
  rintro (own | root | reaches)
  · exact .inl own
  · exact .inr (.inl root)
  · refine .inr (.inr ?_)
    induction reaches with
    | declared isParent => exact .declared isParent
    | @further passed parent next _ _ found isParent ih =>
      by_cases own : passed = t.fullName
      · have same : next = t.info := grounded.own next (own ▸ found)
        exact .declared (same ▸ isParent)
      · by_cases root : passed = objectType
        · rw [grounded.root next (root ▸ found)] at isParent
          exact absurd isParent List.not_mem_nil
        · exact .further ih (by simp [own, root]) found isParent

theorem takes_iff {t : ResolvedType} {m : MemberInfo} :
    takes t (c.supertypeNames t) m = true ↔
      ∃ first more, m.parameters = first :: more ∧ Takes c t m.genericParameters ⟨first.typeName⟩ := by
  unfold takes
  cases m.parameters with
  | nil => simp
  | cons first more =>
    simp only [Bool.or_eq_true, List.contains_iff_mem, List.cons.injEq, existsAndEq, true_and]
    constructor
    · rintro (parameter | other)
      · exact .parameter parameter
      · by_cases isArray : TypeName.isArray ⟨first.typeName⟩ = true
        · rw [if_pos isArray] at other
          exact .array isArray other
        · rw [if_neg isArray, List.contains_iff_mem, mem_supertypeNames_iff] at other
          exact .supertype (Bool.eq_false_iff.mpr isArray) other
    · intro taken
      cases taken with
      | parameter parameter => exact .inl parameter
      | array isArray element => exact .inr (by rwa [if_pos isArray])
      | supertype noArray supertype =>
        rw [if_neg (Bool.eq_false_iff.mp noArray), List.contains_iff_mem, mem_supertypeNames_iff]
        exact .inr supertype

theorem offers_iff {t : ResolvedType} {m : MemberInfo} :
    c.offers t m = true ↔ IsPublicExtension m ∧
      ∃ first more, m.parameters = first :: more ∧ Takes c t m.genericParameters ⟨first.typeName⟩ := by
  simp only [offers, Bool.and_eq_true, beq_iff_eq, takes_iff]
  refine and_congr_left' ⟨?_, ?_⟩
  · rintro ⟨⟨⟨kind, isStatic⟩, extension⟩, access⟩
    exact ⟨kind, isStatic, extension, access⟩
  · rintro ⟨kind, isStatic, extension, access⟩
    exact ⟨⟨⟨kind, isStatic⟩, extension⟩, access⟩

/-- The base of a generic parameter is the parameter, whatever nullable markers and ranks stand behind it. -/
theorem IsParameterName.canonicalBase {parameter : String} (isName : IsParameterName parameter)
    (markers rank : List Char) (nullable : ∀ ch ∈ markers, ch = '?')
    (behind : ∀ ch ∈ rank.head?, ch = '<' ∨ ch = '[') :
    TypeName.canonicalBase ⟨parameter ++ String.ofList (markers ++ rank)⟩ = parameter := by
  obtain ⟨⟨dotted, rfl⟩, plain⟩ := isName
  have whole := canonicalBase_name plain nullable behind
  rwa [List.append_assoc, String.ofList_append] at whole

/-- What takes the type accepts it, or is of the base of a generic parameter. -/
theorem takes_iff_accepts_or_mem {t : ResolvedType} {generics : List String} {written : TypeName}
    (names : ∀ parameter ∈ generics, IsParameterName parameter) (grounded : Grounded c t) :
    Takes c t generics written ↔ Accepts c t generics written ∨ written.canonicalBase ∈ generics := by
  constructor
  · intro taken
    cases taken with
    | parameter parameter => exact .inr parameter
    | array isArray element => exact .inl (.array isArray element)
    | supertype noArray supertype => exact .inl (.supertype noArray (grounded.isSupertype_iff.mp supertype))
  · rintro (accepted | parameter)
    · cases accepted with
      | parameter inside =>
        have base := (names _ inside).canonicalBase [] [] (by simp) (by simp)
        rw [List.append_nil, String.ofList_nil, String.append_empty] at base
        exact .parameter (by rwa [base])
      | @nullableParameter parameter inside marked =>
        have base := (names _ inside).canonicalBase ['?'] [] (by simp) (by simp)
        obtain rfl : written = ⟨parameter ++ String.ofList (['?'] ++ [])⟩ := congrArg TypeName.mk marked
        exact .parameter (by rwa [base])
      | array isArray element => exact .array isArray element
      | supertype noArray supertype => exact .supertype noArray (grounded.isSupertype_iff.mpr supertype)
    · exact .parameter parameter

/-- No generic parameter, nullable or not, is an array, so that arrays are accepted by arrays alone. -/
theorem accepts_array_iff {t : ResolvedType} {generics : List String} {written : TypeName}
    (names : ∀ parameter ∈ generics, IsParameterName parameter) (isArray : written.isArray = true) :
    Accepts c t generics written ↔ t.element.isSome = true := by
  have bracket : written.text.toList.getLast? = some ']' := beq_iff_eq.mp isArray
  refine ⟨fun accepted => ?_, .array isArray⟩
  cases accepted with
  | parameter inside =>
    obtain ⟨⟨dotted, same⟩, -⟩ := names _ inside
    rw [← same, String.toList_ofList] at bracket
    exact absurd rfl (dotted.ne (List.mem_of_mem_getLast? bracket) (by decide))
  | nullableParameter _ marked =>
    rw [marked, String.toList_append] at bracket
    simp at bracket
  | array _ element => exact element
  | supertype noArray => rw [isArray] at noArray; exact absurd noArray (by decide)

/-- The extension methods that are offered for a type. Of the containers' members it is the public extension methods
whose first parameter takes the type: one whose base is a generic parameter of the method always does, any other
array if the type is an array, and any other parameter if it is a supertype. On grounded metadata this is
assignability, except that it takes the base of a parameter for the parameter: an array of a generic parameter, which
only arrays are assignable to, takes every type. -/
theorem extension_methods_offered (c : Catalog) (containers : List TypeInfo) (t : ResolvedType) :
    c.extensionItems containers t =
        (containers.filter (·.isExtensionContainer)).flatMap (fun container =>
          (container.members.filter (c.offers t)).map (·.item true)) ∧
      (∀ m, c.offers t m = true ↔ IsPublicExtension m ∧
        ∃ first more, m.parameters = first :: more ∧ Takes c t m.genericParameters ⟨first.typeName⟩) ∧
      ∀ generics, (∀ parameter ∈ generics, IsParameterName parameter) →
        (∀ written, Grounded c t →
          (Takes c t generics written ↔ Accepts c t generics written ∨ written.canonicalBase ∈ generics)) ∧
        (∀ written, written.isArray = true → (Accepts c t generics written ↔ t.element.isSome = true)) ∧
        ∀ parameter ∈ generics, ∀ rank, Takes c t generics ⟨parameter ++ String.ofList ('[' :: rank)⟩ := by
  refine ⟨rfl, fun m => offers_iff, fun generics names => ⟨fun written grounded => ?_, fun written isArray => ?_, ?_⟩⟩
  · exact takes_iff_accepts_or_mem names grounded
  · exact accepts_array_iff names isArray
  · intro parameter inside rank
    have base := (names parameter inside).canonicalBase [] ('[' :: rank) (by simp) (by simp)
    rw [List.nil_append] at base
    refine .parameter ?_
    rw [base]
    exact inside

/-- Extension methods for a series, for anything and for arrays. -/
def countMethod : MemberInfo :=
  { name := "Count", kind := .method, typeName := "System.Int32", parameters := [⟨"source", "Series<TItem>"⟩]
    genericParameters := ["TItem"], isStatic := true, isExtension := true }

def dumpMethod : MemberInfo :=
  { name := "Dump", kind := .method, parameters := [⟨"value", "T?"⟩]
    genericParameters := ["T"], isStatic := true, isExtension := true }

def fillMethod : MemberInfo :=
  { name := "Fill", kind := .method, parameters := [⟨"all", "T[]"⟩]
    genericParameters := ["T"], isStatic := true, isExtension := true }

def seriesTools : TypeInfo :=
  { name := "Tools", kind := .classType, isExtensionContainer := true
    members := [countMethod, dumpMethod, fillMethod] }

/-- A type that is a series through its base type, and one that is none. -/
def deck : TypeInfo := { name := "Deck", kind := .classType, baseType := some "Pile<T>", genericParameters := ["T"] }

def pile : TypeInfo :=
  { name := "Pile", kind := .classType, interfaces := ["Missing", "Series<T[]>"], genericParameters := ["T"] }

def stone : TypeInfo := { name := "Stone", kind := .classType }

def seriesCatalog : Catalog := catalogOf [deck, pile, stone, seriesTools]

theorem isParameterName_of_mem_fillMethod :
    ∀ parameter ∈ fillMethod.genericParameters, IsParameterName parameter := by
  intro parameter inside
  obtain rfl := List.mem_singleton.mp inside
  exact ⟨⟨dotted "T", rfl⟩, by decide⟩

/-- A deck is offered the method for a series because it reaches the series through its base type. -/
theorem extension_methods_offered_deck :
    let t : ResolvedType := { info := deck, arguments := [⟨"int"⟩] }
    seriesCatalog.offers t countMethod = true ∧ Accepts seriesCatalog t ["TItem"] ⟨"Series<TItem>"⟩ := by
  intro t
  have offered : seriesCatalog.offers t countMethod = true := by decide +kernel
  have names : ∀ parameter ∈ ["TItem"], IsParameterName parameter := by
    intro parameter inside
    obtain rfl := List.mem_singleton.mp inside
    exact ⟨⟨dotted "TItem", rfl⟩, by decide⟩
  have grounded : Grounded seriesCatalog t := by
    have own : seriesCatalog.findType? t.fullName = some deck := by decide +kernel
    have noRoot : seriesCatalog.findType? objectType = none := by decide +kernel
    exact ⟨fun info found => Option.some.inj (found.symm.trans own), fun info found => by simp [noRoot] at found⟩
  obtain ⟨-, rule, differs⟩ := extension_methods_offered seriesCatalog [seriesTools] t
  obtain ⟨-, first, more, parameters, takes⟩ := (rule countMethod).mp offered
  obtain ⟨rfl, -⟩ := List.cons.inj parameters
  have noParameter : TypeName.canonicalBase ⟨"Series<TItem>"⟩ ∉ ["TItem"] := by decide +kernel
  exact ⟨offered, (((differs _ names).1 _ grounded).mp takes).resolve_right noParameter⟩

/-- The root of all types with an interface, a type that derives from it, and a method for the interface. -/
def shownRoot : TypeInfo :=
  { namespaceName := some "System", name := "Object", kind := .classType, interfaces := ["Shown"] }

def panel : TypeInfo := { name := "Panel", kind := .classType, baseType := some "System.Object" }

def showMethod : MemberInfo :=
  { name := "Show", kind := .method, parameters := [⟨"it", "Shown"⟩], isStatic := true, isExtension := true }

def shownCatalog : Catalog := catalogOf [shownRoot, panel]

/-- A type that is no array is offered a method for arrays of anything. Where the root of all types derives from an
interface, a type that derives from the root is not offered a method for the interface. -/
theorem array_of_parameter_takes_any_type :
    (seriesCatalog.offers { info := stone } fillMethod = true ∧
        ¬ Accepts seriesCatalog { info := stone } fillMethod.genericParameters ⟨"T[]"⟩) ∧
      shownCatalog.offers { info := panel } showMethod = false ∧
        Accepts shownCatalog { info := panel } showMethod.genericParameters ⟨"Shown"⟩ := by
  refine ⟨⟨by decide +kernel, fun accepted => ?_⟩, by decide +kernel, .supertype (by decide +kernel) (.inr (.inr ?_))⟩
  · have noArray := (accepts_array_iff isParameterName_of_mem_fillMethod (by decide)).mp accepted
    exact absurd noArray (by decide)
  · have base : TypeName.canonicalBase ⟨"Shown"⟩ = "Shown" := by decide +kernel
    have root : objectType ∈ declaredParents panel := by decide +kernel
    have shown : "Shown" ∈ declaredParents shownRoot := by decide +kernel
    rw [base]
    exact .further (.declared root) List.not_mem_nil (by decide +kernel) shown

end Typeahead.Catalog
