import Typeahead.Catalog.Namespaces

namespace Typeahead

open Text

namespace Catalog

/-- Which members stay, by the full name of the type that declares them. -/
abbrev Selection := String → MemberInfo → Bool

def TypeInfo.restrict (keep : Selection) (t : TypeInfo) : TypeInfo :=
  { t with members := t.members.filter (keep t.fullName) }

def Assembly.restrict (keep : Selection) (a : Assembly) : Assembly :=
  { a with types := a.types.map (·.restrict keep) }

def MetadataFile.restrict (keep : Selection) (file : MetadataFile) : MetadataFile :=
  { file with content := file.content.map (·.restrict keep) }

def Layer.restrict (keep : Selection) : Layer → Layer
  | .core => .memory [coreLibrary.restrict keep]
  | .memory assemblies => .memory (assemblies.map (·.restrict keep))
  | .directory files => .directory (files.map (·.restrict keep))

def Loader.restrict (keep : Selection) (loader : Loader) : Loader := loader.map (·.restrict keep)

/-- The catalog with the selected members alone. -/
def restrict (c : Catalog) (keep : Selection) : Catalog := { c with loader := c.loader.restrict keep }

def ResolvedType.restrict (keep : Selection) (t : ResolvedType) : ResolvedType :=
  { t with info := t.info.restrict keep }

variable {keep : Selection}

@[simp] theorem TypeInfo.fullName_restrict (t : TypeInfo) : (t.restrict keep).fullName = t.fullName := rfl

@[simp] theorem ResolvedType.fullName_restrict (t : ResolvedType) :
    (t.restrict keep).fullName = t.fullName := rfl

@[simp] theorem ResolvedType.isVoid_restrict (t : ResolvedType) : (t.restrict keep).isVoid = t.isVoid := rfl

theorem Layer.load_restrict (layer : Layer) (name : String) :
    ((layer.restrict keep).load name).toOption = (layer.load name).toOption.map (·.restrict keep) := by
  cases layer with
  | core =>
    have called : coreLibrary.name = coreLibraryName := rfl
    simp only [restrict, load]
    -- The library is a long list of types, which plays no part here.
    generalize coreLibrary = library at called
    by_cases named : name = coreLibraryName
    · have same : ((library.restrict keep).name == name) = true := beq_iff_eq.mpr (called.trans named.symm)
      rw [if_pos named, List.filter_cons, if_pos same]
      rfl
    · have other : ((library.restrict keep).name == name) = false :=
        beq_eq_false_iff_ne.mpr fun same => named (same.symm.trans called)
      rw [if_neg named, List.filter_cons, if_neg (by rw [other]; decide)]
      rfl
  | memory assemblies =>
    have found : ((assemblies.map (·.restrict keep)).filter (·.name == name)).getLast? =
        ((assemblies.filter (·.name == name)).getLast?).map (·.restrict keep) := by
      rw [List.filter_map, List.getLast?_map]
      rfl
    simp only [restrict, load, found]
    cases (assemblies.filter (·.name == name)).getLast? <;> rfl
  | directory files =>
    have found : (files.map (·.restrict keep)).find? (·.assembly == name) =
        (files.find? (·.assembly == name)).map (·.restrict keep) := by
      rw [List.find?_map]
      rfl
    simp only [restrict, load, found]
    cases files.find? (·.assembly == name) with
    | none => rfl
    | some file =>
      obtain ⟨assembly, path, content⟩ := file
      cases content <;> rfl

theorem Loader.toOption_load_cons (layer next : Layer) (more : List Layer) (name : String) :
    (Loader.load name (layer :: next :: more)).toOption =
      (layer.load name).toOption.or (Loader.load name (next :: more)).toOption := by
  rw [Loader.load]
  cases layer.load name <;> rfl

theorem Loader.load_restrict (loader : Loader) (name : String) :
    (Loader.load name (loader.restrict keep)).toOption =
      (Loader.load name loader).toOption.map (·.restrict keep) := by
  induction loader with
  | nil => rfl
  | cons layer more ih =>
    cases more with
    | nil => exact layer.load_restrict name
    | cons next more =>
      have rest : (Loader.restrict keep (layer :: next :: more)) =
          layer.restrict keep :: next.restrict keep :: Loader.restrict keep more := rfl
      rw [rest, toOption_load_cons, toOption_load_cons, layer.load_restrict, Option.map_or]
      exact congrArg (Option.or _) ih

theorem Assembly.find?_restrict (a : Assembly) (name : String) :
    (a.restrict keep).find? name = (a.find? name).map (·.restrict keep) := by
  unfold Assembly.find? Assembly.restrict
  rw [List.filter_map, List.getLast?_map]
  rfl

variable (c : Catalog)

theorem assembly?_restrict (name : String) :
    (c.restrict keep).assembly? name = (c.assembly? name).map (·.restrict keep) :=
  c.loader.load_restrict name

theorem assembliesFor_restrict (namespaces : List String) :
    (c.restrict keep).assembliesFor namespaces = (c.assembliesFor namespaces).map (·.restrict keep) := by
  unfold assembliesFor
  rw [List.map_filterMap]
  exact congrArg (List.filterMap · _) (funext fun name => c.assembly?_restrict name)

theorem findType?_restrict (name : String) :
    (c.restrict keep).findType? name = (c.findType? name).map (·.restrict keep) := by
  unfold findType?
  rw [assembliesFor_restrict, List.findSome?_map, List.map_findSome?]
  exact congrArg (List.findSome? · _) (funext fun a => a.find?_restrict name)

/-- The types of the assemblies of some namespaces. -/
theorem types_assembliesFor_restrict (namespaces : List String) :
    ((c.restrict keep).assembliesFor namespaces).flatMap (·.types) =
      ((c.assembliesFor namespaces).flatMap (·.types)).map (·.restrict keep) := by
  rw [assembliesFor_restrict, List.flatMap_map, List.map_flatMap]
  rfl

theorem findSome?_findType?_restrict (names : List String) :
    names.findSome? (c.restrict keep).findType? = (names.findSome? c.findType?).map (·.restrict keep) := by
  rw [List.map_findSome?]
  exact congrArg (List.findSome? · names) (funext fun name => c.findType?_restrict name)

theorem resolve?_restrict (written : String) (qualifiers : List String) :
    (c.restrict keep).resolve? written qualifiers =
      (c.resolve? written qualifiers).map (·.restrict keep) := by
  unfold resolve?
  generalize TypeName.mk (String.ofList (trim written.toList)) = reference
  simp only [findType?_restrict, findSome?_findType?_restrict]
  split
  · rfl
  · split
    · generalize c.findType? arrayType = found
      cases found <;> rfl
    · generalize List.findSome? c.findType? _ = found
      cases found <;> rfl

theorem resolveMember?_restrict (written : TypeName) (declaring : ResolvedType) (qualifiers : List String) :
    (c.restrict keep).resolveMember? written (declaring.restrict keep) qualifiers =
      (c.resolveMember? written declaring qualifiers).map (·.restrict keep) := by
  unfold resolveMember?
  rw [resolve?_restrict, ResolvedType.fullName_restrict, findType?_restrict, Option.map_map, Option.map_or,
    Option.map_map]
  rfl

theorem distinctTypes_map_restrict (seen : List String) (types : List TypeInfo) :
    distinctTypes seen (types.map (·.restrict keep)) = (distinctTypes seen types).map (·.restrict keep) := by
  induction types generalizing seen with
  | nil => rfl
  | cons t types ih =>
    rw [List.map_cons, distinctTypes, distinctTypes, TypeInfo.fullName_restrict]
    split
    · exact ih seen
    · rw [ih, List.map_cons]

theorem typesIn_restrict (namespaces : List String) :
    (c.restrict keep).typesIn namespaces = (c.typesIn namespaces).map (·.restrict keep) := by
  unfold typesIn
  rw [types_assembliesFor_restrict, List.filter_map, distinctTypes_map_restrict]
  rfl

theorem namespaces_restrict : (c.restrict keep).namespaces = c.namespaces := by
  have declared : (c.restrict keep).declaredNamespaces = c.declaredNamespaces := by
    have workspace : (c.restrict keep).references.workspace.filterMap (c.restrict keep).assembly? =
        (c.references.workspace.filterMap c.assembly?).map (·.restrict keep) := by
      rw [List.map_filterMap]
      exact congrArg (List.filterMap · _) (funext fun name => c.assembly?_restrict name)
    unfold declaredNamespaces
    rw [workspace, List.flatMap_map]
    refine congrArg (_ ++ ·) (congrArg (List.flatMap · _) (funext fun a => ?_))
    show (a.types.map (·.restrict keep)).filterMap _ = _
    rw [List.filterMap_map]
    rfl
  unfold namespaces
  rw [declared]

theorem isNamespace_restrict : (c.restrict keep).isNamespace = c.isNamespace := by
  funext name
  unfold isNamespace
  rw [namespaces_restrict]

theorem rootNamespaces_restrict : (c.restrict keep).rootNamespaces = c.rootNamespaces := by
  unfold rootNamespaces
  rw [namespaces_restrict]

theorem childNamespaces_restrict (parent : String) :
    (c.restrict keep).childNamespaces parent = c.childNamespaces parent := by
  unfold childNamespaces
  rw [namespaces_restrict]

end Catalog

end Typeahead
