import Typeahead.Catalog.CoreLibrary

namespace Typeahead.Catalog

/-- Why an assembly cannot be loaded. -/
inductive LoadError where
  | notRegistered (assembly : String)
  | noMetadataFile (assembly : String)
  | unparsable (path : String)
  | notCoreLibrary (assembly : String)
  | noLayers
  deriving DecidableEq, Repr

def LoadError.message : LoadError → String
  | .notRegistered assembly => "assembly " ++ assembly ++ " not registered"
  | .noMetadataFile assembly => "no metadata file for assembly " ++ assembly
  | .unparsable path => "parsing " ++ path
  | .notCoreLibrary assembly => assembly ++ " is not the core library"
  | .noLayers => "no loaders configured"

/-- A metadata file, under the assembly name its file name gives. -/
structure MetadataFile where
  assembly : String
  path : String
  /-- What the file holds, if that is metadata. -/
  content : Option Assembly
  deriving DecidableEq, Repr

/-- The core library that is always there, assemblies held in memory, or a directory of metadata files. -/
inductive Layer where
  | core
  | memory (assemblies : List Assembly)
  | directory (files : List MetadataFile)
  deriving DecidableEq, Repr

/-- The layers that assemblies come from; the first one that has an assembly supplies it. -/
abbrev Loader := List Layer

/-- Of two assemblies in memory with one name the later counts, of two files the earlier. -/
def Layer.load (name : String) : Layer → Except LoadError Assembly
  | .core => if name = coreLibraryName then .ok coreLibrary else .error (.notCoreLibrary name)
  | .memory assemblies =>
    match (assemblies.filter (·.name == name)).getLast? with
    | some a => .ok a
    | none => .error (.notRegistered name)
  | .directory files =>
    match files.find? (·.assembly == name) with
    | none => .error (.noMetadataFile name)
    | some file =>
      match file.content with
      | some a => .ok a
      | none => .error (.unparsable file.path)

/-- The first success; when there is none, the error of the last layer. -/
def Loader.load (name : String) : Loader → Except LoadError Assembly
  | [] => .error .noLayers
  | [layer] => layer.load name
  | layer :: next :: more =>
    match layer.load name with
    | .ok a => .ok a
    | .error _ => Loader.load name (next :: more)

def Layer.assemblies : Layer → List Assembly
  | .core => [coreLibrary]
  | .memory assemblies => assemblies
  | .directory files => files.filterMap (·.content)

def Loader.assemblies (loader : Loader) : List Assembly := loader.flatMap Layer.assemblies

theorem Layer.mem_assemblies_of_load {layer : Layer} {name : String} {a : Assembly}
    (h : layer.load name = .ok a) : a ∈ layer.assemblies := by
  cases layer with
  | core =>
    simp only [Layer.load] at h
    split at h
    · simp only [Except.ok.injEq] at h; simp [Layer.assemblies, ← h]
    · simp at h
  | memory assemblies =>
    simp only [Layer.load] at h
    split at h
    · next found =>
      simp only [Except.ok.injEq] at h
      exact h ▸ (List.mem_filter.mp (List.mem_of_getLast? found)).1
    · simp at h
  | directory files =>
    simp only [Layer.load] at h
    split at h
    · simp at h
    · next file found =>
      split at h
      · next content =>
        simp only [Except.ok.injEq] at h
        exact List.mem_filterMap.mpr ⟨file, List.mem_of_find?_eq_some found, by rw [content, h]⟩
      · simp at h

theorem Loader.mem_assemblies_of_load {loader : Loader} {name : String} {a : Assembly}
    (h : loader.load name = .ok a) : a ∈ loader.assemblies := by
  fun_induction Loader.load name loader with
  | case1 => simp at h
  | case2 layer => simpa [Loader.assemblies] using Layer.mem_assemblies_of_load h
  | case3 layer next more b found =>
    simp only [Except.ok.injEq] at h
    subst h
    exact List.mem_flatMap.mpr ⟨layer, by simp, Layer.mem_assemblies_of_load found⟩
  | case4 layer next more _ _ ih =>
    have later := ih h
    simp only [Loader.assemblies, List.flatMap_cons, List.mem_append] at later ⊢
    exact Or.inr later

end Typeahead.Catalog
