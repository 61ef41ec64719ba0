import Mathlib.Data.List.Nodup
import Mathlib.Data.List.TakeWhile
import Typeahead.Proofs.Catalog.Nesting

namespace Typeahead.Catalog

open Text

/-- Full names are distinct inside an assembly, and only the dots of a namespace stand in them. -/
structure WellNamed (c : Catalog) : Prop where
  distinct : ∀ a ∈ c.loader.assemblies, (a.types.map (·.fullName)).Nodup
  undotted : ∀ a ∈ c.loader.assemblies, ∀ t ∈ a.types, '.' ∉ t.name.toList

def Assembly.declares (a : Assembly) (fullName : String) : Bool := a.types.any (·.fullName == fullName)

/-- The assembly that the search for a full name stops at, when the namespace is known. -/
def declaringAssembly? (c : Catalog) (namespaceText fullName : String) : Option Assembly :=
  (c.assembliesFor [namespaceText]).find? (·.declares fullName)

/-- What a listing reads serves the namespaces of its types, and no two of the assemblies that serve a
namespace declare different types under one full name. -/
structure Consistent (c : Catalog) (namespaces : List String) : Prop where
  serves : ∀ a ∈ c.assembliesFor namespaces, ∀ t ∈ a.types, a ∈ c.assembliesFor [t.namespaceText]
  single : ∀ a ∈ c.assembliesFor namespaces, ∀ t ∈ a.types,
    ∀ b ∈ c.assembliesFor [t.namespaceText], ∀ u ∈ b.types, u.fullName = t.fullName → u = t

/-- The namespace is read back from the full name of a type that is not nested. -/
theorem namespaceOf_fullName {t : TypeInfo} (undotted : '.' ∉ t.name.toList) (bare : '+' ∉ t.fullName.toList) :
    namespaceOf t.fullName = t.namespaceText := by
  have unnested : '+' ∉ t.namespaceText.toList := by
    intro plus
    rw [TypeInfo.toList_fullName] at bare
    split at bare
    · next none => simp [none] at plus
    · exact bare (List.mem_append_left _ plus)
  exact namespaceOf_of_outermost (fun dot => undotted ((List.takeWhile_prefix _).subset dot)) unnested

theorem not_mem_fullName {t : TypeInfo} (notNested : t.isNested = false) (unnested : '+' ∉ t.namespaceText.toList) :
    '+' ∉ t.fullName.toList := by
  have inName : '+' ∉ t.name.toList := by simpa [TypeInfo.isNested] using notNested
  rw [TypeInfo.toList_fullName]
  split
  · exact inName
  · simp [unnested, inName]

theorem isNested_eq_false {t : TypeInfo} (bare : '+' ∉ t.fullName.toList) : t.isNested = false := by
  have inName : '+' ∉ t.name.toList := by
    intro nested
    rw [TypeInfo.toList_fullName] at bare
    split at bare
    · exact bare nested
    · exact bare (by simp [nested])
  simpa [TypeInfo.isNested] using inName

theorem mem_assemblies_of_mem_assembliesFor {c : Catalog} {namespaces : List String} {a : Assembly}
    (listed : a ∈ c.assembliesFor namespaces) : a ∈ c.loader.assemblies := by
  obtain ⟨name, -, loaded⟩ := List.mem_filterMap.mp listed
  unfold assembly? at loaded
  cases run : c.loader.load name with
  | error e => simp [run, Except.toOption] at loaded
  | ok b =>
    simp only [run, Except.toOption, Option.some.injEq] at loaded
    exact loaded ▸ Loader.mem_assemblies_of_load run

/-- Under distinct names the table of an assembly gives exactly its types. -/
theorem Assembly.find?_eq_some_iff {a : Assembly} (distinct : (a.types.map (·.fullName)).Nodup)
    {fullName : String} {t : TypeInfo} : a.find? fullName = some t ↔ t ∈ a.types ∧ t.fullName = fullName := by
  constructor
  · intro found
    have member := List.mem_filter.mp (List.mem_of_getLast? found)
    exact ⟨member.1, by simpa using member.2⟩
  · rintro ⟨member, rfl⟩
    obtain ⟨u, found⟩ := Option.isSome_iff_exists.mp (Assembly.isSome_find? member)
    have other := List.mem_filter.mp (List.mem_of_getLast? found)
    have same : u = t := List.inj_on_of_nodup_map distinct other.1 member (by simpa using other.2)
    rw [found, same]

theorem Assembly.find?_eq_none {a : Assembly} {fullName : String} (absent : a.declares fullName = false) :
    a.find? fullName = none := by
  have none : a.types.filter (·.fullName == fullName) = [] := by
    rw [List.filter_eq_nil_iff]
    simpa [Assembly.declares] using absent
  rw [Assembly.find?, none]
  rfl

/-- The search stops at the first assembly that declares the name. -/
theorem findSome?_find?_eq {as : List Assembly} {fullName : String} :
    as.findSome? (·.find? fullName) = (as.find? (·.declares fullName)).bind (·.find? fullName) := by
  induction as with
  | nil => rfl
  | cons a as ih =>
    rw [List.findSome?_cons, List.find?_cons]
    cases declared : a.declares fullName with
    | false => rw [Assembly.find?_eq_none declared, ih]
    | true =>
      obtain ⟨t, member, same⟩ := List.any_eq_true.mp declared
      obtain ⟨u, found⟩ := Option.isSome_iff_exists.mp (Assembly.isSome_find? member)
      rw [beq_iff_eq.mp same] at found
      simp [found]

/-- What is listed is the first type of its name among those that may be listed. -/
theorem find?_of_mem_distinctTypes {seen : List String} {types : List TypeInfo} {t : TypeInfo}
    (listed : t ∈ distinctTypes seen types) :
    t.fullName ∉ seen ∧ types.find? (·.fullName == t.fullName) = some t := by
  induction types generalizing seen with
  | nil => simp [distinctTypes] at listed
  | cons first types ih =>
    unfold distinctTypes at listed
    split at listed
    · next repeated =>
      obtain ⟨fresh, found⟩ := ih listed
      have other : first.fullName ≠ t.fullName := fun same => fresh (same ▸ by simpa using repeated)
      exact ⟨fresh, by rwa [List.find?_cons_of_neg (by simpa using other)]⟩
    · next new =>
      rcases List.mem_cons.mp listed with rfl | later
      · exact ⟨by simpa using new, by simp⟩
      · obtain ⟨fresh, found⟩ := ih later
        have other : first.fullName ≠ t.fullName := fun same => fresh (same ▸ List.mem_cons_self)
        exact ⟨fun inside => fresh (List.mem_cons_of_mem _ inside),
          by rwa [List.find?_cons_of_neg (by simpa using other)]⟩

/-- A type may be listed for the namespaces. -/
def TypeInfo.isListed (namespaces : List String) (t : TypeInfo) : Bool :=
  namespaces.contains t.namespaceText && t.isPublic && !t.isNested

theorem typesIn_eq (c : Catalog) (namespaces : List String) :
    c.typesIn namespaces =
      distinctTypes [] (((c.assembliesFor namespaces).flatMap (·.types)).filter (·.isListed namespaces)) := rfl

variable {c : Catalog} {namespaces : List String} {t : TypeInfo}

theorem exists_assembly_of_mem_typesIn (listed : t ∈ c.typesIn namespaces) :
    t.isListed namespaces = true ∧ ∃ a ∈ c.assembliesFor namespaces, t ∈ a.types := by
  rw [typesIn_eq] at listed
  have first := (find?_of_mem_distinctTypes listed).2
  obtain ⟨declared, isListed⟩ := List.mem_filter.mp (List.mem_of_find?_eq_some first)
  obtain ⟨a, inside, member⟩ := List.mem_flatMap.mp declared
  exact ⟨isListed, a, inside, member⟩

theorem TypeInfo.not_isNested_of_isListed (isListed : t.isListed namespaces = true) : t.isNested = false := by
  simp only [TypeInfo.isListed, Bool.and_eq_true, Bool.not_eq_true'] at isListed
  exact isListed.2

/-- The search for a listed type asks the assemblies of the type's own namespace. -/
theorem findType?_fullName (undotted : '.' ∉ t.name.toList) (bare : '+' ∉ t.fullName.toList) :
    c.findType? t.fullName = (declaringAssembly? c t.namespaceText t.fullName).bind (·.find? t.fullName) := by
  rw [findType?, namespaceOf_fullName undotted bare, findSome?_find?_eq, declaringAssembly?]

theorem mem_of_declaringAssembly? {a : Assembly} {namespaceText fullName : String}
    (first : declaringAssembly? c namespaceText fullName = some a) : a ∈ c.assembliesFor [namespaceText] :=
  List.mem_of_find?_eq_some first

theorem findType?_eq_some_iff (wellNamed : WellNamed c) (undotted : '.' ∉ t.name.toList)
    (bare : '+' ∉ t.fullName.toList) :
    c.findType? t.fullName = some t ↔
      ∃ a, declaringAssembly? c t.namespaceText t.fullName = some a ∧ t ∈ a.types := by
  rw [findType?_fullName undotted bare, Option.bind_eq_some_iff]
  refine exists_congr fun a => and_congr_right fun first => ?_
  have held := mem_assemblies_of_mem_assembliesFor (mem_of_declaringAssembly? first)
  rw [Assembly.find?_eq_some_iff (wellNamed.distinct a held)]
  exact and_iff_left rfl

theorem exists_declaringAssembly? {a : Assembly} {namespaceText : String}
    (serves : a ∈ c.assembliesFor [namespaceText]) (member : t ∈ a.types) :
    ∃ b, declaringAssembly? c namespaceText t.fullName = some b ∧ ∃ u ∈ b.types, u.fullName = t.fullName := by
  have declares : a.declares t.fullName = true := List.any_eq_true.mpr ⟨t, member, beq_iff_eq.mpr rfl⟩
  have some : ((c.assembliesFor [namespaceText]).find? (·.declares t.fullName)).isSome = true :=
    List.find?_isSome.mpr ⟨a, serves, declares⟩
  obtain ⟨b, first⟩ := Option.isSome_iff_exists.mp some
  have declaresToo : b.declares t.fullName = true :=
    List.find?_some (p := fun b : Assembly => b.declares t.fullName) first
  obtain ⟨u, inside, same⟩ := List.any_eq_true.mp declaresToo
  exact ⟨b, first, u, inside, beq_iff_eq.mp same⟩

/-- Types of one full name are in one namespace. -/
theorem namespaceText_eq_of_fullName_eq {u : TypeInfo} (undotted : '.' ∉ t.name.toList)
    (undottedOther : '.' ∉ u.name.toList) (bare : '+' ∉ t.fullName.toList) (same : u.fullName = t.fullName) :
    u.namespaceText = t.namespaceText := by
  rw [← namespaceOf_fullName undotted bare, ← same, namespaceOf_fullName undottedOther (same ▸ bare)]

/-- Where the first assembly that declares the name in a listing declares it publicly, its type is listed. -/
theorem eq_of_mem_typesIn (wellNamed : WellNamed c) (listed : t ∈ c.typesIn namespaces)
    (unnested : '+' ∉ t.namespaceText.toList) {a : Assembly} {u : TypeInfo}
    (first : (c.assembliesFor namespaces).find? (·.declares t.fullName) = some a) (member : u ∈ a.types)
    (same : u.fullName = t.fullName) (isPublic : u.isPublic = true) : u = t := by
  obtain ⟨isListed, b, inside, declared⟩ := exists_assembly_of_mem_typesIn listed
  have held := mem_assemblies_of_mem_assembliesFor (List.mem_of_find?_eq_some first)
  have bare := not_mem_fullName (TypeInfo.not_isNested_of_isListed isListed) unnested
  have undotted := wellNamed.undotted b (mem_assemblies_of_mem_assembliesFor inside) t declared
  have place := namespaceText_eq_of_fullName_eq undotted (wellNamed.undotted a held u member) bare same
  have listedToo : u.isListed namespaces = true := by
    simp only [TypeInfo.isListed, Bool.and_eq_true] at isListed ⊢
    exact ⟨⟨place ▸ isListed.1.1, isPublic⟩, by simp [isNested_eq_false (same ▸ bare)]⟩
  obtain ⟨-, earlier, later, split, absent⟩ := List.find?_eq_some_iff_append.mp first
  have found := (find?_of_mem_distinctTypes (typesIn_eq c namespaces ▸ listed)).2
  rw [List.find?_filter, List.find?_flatMap, split, List.findSome?_append] at found
  let fits (v : TypeInfo) : Bool := decide (v.isListed namespaces = true ∧ (v.fullName == t.fullName) = true)
  have before : earlier.findSome? (fun b => b.types.find? fits) = none := by
    rw [List.findSome?_eq_none_iff]
    intro b inEarlier
    rw [List.find?_eq_none]
    intro v declaredThere
    have other := absent b inEarlier
    simp only [Assembly.declares, Bool.not_eq_true', List.any_eq_false] at other
    simp only [fits, decide_eq_true_eq, not_and]
    exact fun _ => other v declaredThere
  have here : a.types.find? fits = some u := by
    have passes : fits u = true := by simp [fits, listedToo, same]
    obtain ⟨w, firstThere⟩ := Option.isSome_iff_exists.mp (List.find?_isSome.mpr ⟨u, member, passes⟩)
    have fitsToo := List.find?_some firstThere
    simp only [fits, decide_eq_true_eq, beq_iff_eq] at fitsToo
    rw [firstThere, List.inj_on_of_nodup_map (wellNamed.distinct a held) (List.mem_of_find?_eq_some firstThere)
      member (fitsToo.2.trans same.symm)]
  rw [before, List.findSome?_cons, here] at found
  exact Option.some.inj found

/-- A listed type is found under its full name exactly if the first assembly that serves its namespace and
declares the name declares it. So it is wherever what a listing reads serves the namespaces of its types and
names are declared once, and wherever the listing reads the assemblies of the type's own namespace alone and
the first declaration of the name there is public. -/
theorem findType?_of_mem_typesIn (wellNamed : WellNamed c) (listed : t ∈ c.typesIn namespaces)
    (unnested : '+' ∉ t.namespaceText.toList) :
    (c.findType? t.fullName = some t ↔
      ∃ a, declaringAssembly? c t.namespaceText t.fullName = some a ∧ t ∈ a.types) ∧
    (Consistent c namespaces → c.findType? t.fullName = some t) ∧
    (c.assembliesFor namespaces = c.assembliesFor [t.namespaceText] →
      (∀ a ∈ declaringAssembly? c t.namespaceText t.fullName, ∀ u ∈ a.types, u.fullName = t.fullName → u.isPublic) →
      c.findType? t.fullName = some t) := by
  obtain ⟨isListed, a, inside, member⟩ := exists_assembly_of_mem_typesIn listed
  have undotted := wellNamed.undotted a (mem_assemblies_of_mem_assembliesFor inside) t member
  have bare := not_mem_fullName (TypeInfo.not_isNested_of_isListed isListed) unnested
  have asDeclared := findType?_eq_some_iff wellNamed undotted bare
  refine ⟨asDeclared, fun consistent => ?_, fun alike isPublic => ?_⟩
  · have serves := consistent.serves a inside t member
    obtain ⟨b, first, u, declared, same⟩ := exists_declaringAssembly? serves member
    have single := consistent.single a inside t member b (mem_of_declaringAssembly? first) u declared same
    exact asDeclared.mpr ⟨b, first, single ▸ declared⟩
  · obtain ⟨b, first, u, declared, same⟩ := exists_declaringAssembly? (alike ▸ inside) member
    have inListing : (c.assembliesFor namespaces).find? (·.declares t.fullName) = some b := alike ▸ first
    have single := eq_of_mem_typesIn wellNamed listed unnested inListing declared same
      (isPublic b first u declared same)
    exact asDeclared.mpr ⟨b, first, single ▸ declared⟩

/-- A type of the namespace `Lib`. -/
def libType (kind : TypeKind) (access : Access) : TypeInfo :=
  { namespaceName := some "Lib", name := "T", kind, access }

/-- A catalog of assemblies in memory, with some namespaces bound to some of them. -/
def boundCatalog (assemblies : List Assembly) (bound : List (String × String)) : Catalog :=
  ⟨bound.foldl (fun r (namespaceName, assembly) => r.bind namespaceName assembly) {}, [.memory assemblies]⟩

/-- One assembly with types of two namespaces, bound to both. -/
def sharedCatalog : Catalog :=
  boundCatalog
    [⟨"X", [libType .classType .publicAccess, { namespaceName := some "App", name := "T", kind := .enumType }]⟩]
    [("App", "X"), ("Lib", "X")]

theorem findType?_of_mem_typesIn_shared :
    WellNamed sharedCatalog ∧ libType .classType .publicAccess ∈ sharedCatalog.typesIn ["App", "Lib"] ∧
      '+' ∉ (libType .classType .publicAccess).namespaceText.toList ∧
      sharedCatalog.findType? "Lib.T" = some (libType .classType .publicAccess) := by
  have wellNamed : WellNamed sharedCatalog := ⟨by decide, by decide⟩
  have listed : libType .classType .publicAccess ∈ sharedCatalog.typesIn ["App", "Lib"] := by decide
  have unnested : '+' ∉ (libType .classType .publicAccess).namespaceText.toList := by decide
  have consistent : Consistent sharedCatalog ["App", "Lib"] := ⟨by decide, by decide⟩
  exact ⟨wellNamed, listed, unnested, (findType?_of_mem_typesIn wellNamed listed unnested).2.1 consistent⟩

/-- The assembly is bound to another namespace than that of its type. -/
def foreignCatalog : Catalog := boundCatalog [⟨"X", [libType .classType .publicAccess]⟩] [("App", "X")]

/-- Two assemblies declare the name, and the namespaces of a listing lead to them in another order than the
type's own namespace. -/
def crossedCatalog : Catalog :=
  boundCatalog [⟨"X", [libType .classType .publicAccess]⟩, ⟨"Y", [libType .structType .publicAccess]⟩]
    [("App", "X"), ("Lib", "Y"), ("Lib", "X")]

/-- A declaration that is not public stands before the one that is listed. -/
def shadowedCatalog : Catalog :=
  boundCatalog [⟨"X", [libType .classType .publicAccess]⟩, ⟨"Y", [libType .structType .internalAccess]⟩]
    [("Lib", "Y"), ("Lib", "X")]

/-- The mark of nesting stands in a namespace. -/
def markedType : TypeInfo := { namespaceName := some "A+B", name := "T", kind := .classType }

def markedCatalog : Catalog := boundCatalog [⟨"X", [markedType]⟩] [("A+B", "X")]

/-- Types that are listed and not found under their full names, or found as others. -/
theorem listed_types_not_found :
    (WellNamed foreignCatalog ∧ libType .classType .publicAccess ∈ foreignCatalog.typesIn ["App", "Lib"] ∧
      foreignCatalog.findType? "Lib.T" = none) ∧
    (WellNamed crossedCatalog ∧ libType .classType .publicAccess ∈ crossedCatalog.typesIn ["App", "Lib"] ∧
      crossedCatalog.findType? "Lib.T" = some (libType .structType .publicAccess)) ∧
    (WellNamed shadowedCatalog ∧ libType .classType .publicAccess ∈ shadowedCatalog.typesIn ["Lib"] ∧
      shadowedCatalog.findType? "Lib.T" = some (libType .structType .internalAccess)) ∧
    (WellNamed markedCatalog ∧ markedType ∈ markedCatalog.typesIn ["A+B"] ∧
      markedCatalog.findType? markedType.fullName = none) := by
  refine ⟨⟨⟨?_, ?_⟩, ?_⟩, ⟨⟨?_, ?_⟩, ?_⟩, ⟨⟨?_, ?_⟩, ?_⟩, ⟨⟨?_, ?_⟩, ?_⟩⟩ <;> decide

end Typeahead.Catalog
