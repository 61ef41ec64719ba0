import Typeahead.Catalog.Resolution

namespace Typeahead.Catalog

open Text

/-- The known names that were not met. -/
def unmet (known met : List String) : List String := known.filter (!met.contains ·)

theorem unmet_cons (known met : List String) (name : String) :
    unmet known (name :: met) = (unmet known met).filter (· != name) := by
  simp only [unmet, List.filter_filter]
  refine List.filter_congr fun other _ => ?_
  by_cases same : other = name <;> simp [same]

theorem length_unmet_cons_lt {known met : List String} {name : String} (isKnown : name ∈ known)
    (fresh : name ∉ met) : (unmet known (name :: met)).length < (unmet known met).length := by
  rw [unmet_cons]
  exact List.length_filter_lt_length_iff_exists.mpr
    ⟨name, List.mem_filter.mpr ⟨isKnown, by simpa using fresh⟩, by simp⟩

theorem length_unmet_cons_le (known met : List String) (name : String) :
    (unmet known (name :: met)).length ≤ (unmet known met).length := by
  rw [unmet_cons]
  exact List.length_filter_le ..

/-- The base type of a type in the place where it is used, and the interfaces an interface extends. A
type without a base derives from the root of all types, unless it is an interface or the root itself. -/
def parents (t : ResolvedType) : List TypeName :=
  let base :=
    match t.info.baseType with
    | some base => [t.substitute base]
    | none => if t.info.kind = .interfaceType ∨ t.fullName = objectType then [] else [⟨objectType⟩]
  if t.info.kind = .interfaceType then base ++ t.info.interfaces.map t.substitute else base

/-- The parents that the catalog knows and that were not met. -/
def newParents (c : Catalog) (met : List String) : List TypeName → List ResolvedType
  | [] => []
  | parent :: more =>
    match c.findType? parent.canonicalBase with
    | none => newParents c met more
    | some info =>
      if met.contains info.fullName then newParents c met more
      else { info, arguments := parent.arguments } :: newParents c (info.fullName :: met) more

/-- The names met after a list of types, the latest first. -/
def meet (met : List String) (types : List ResolvedType) : List String :=
  types.foldl (fun met t => t.fullName :: met) met

theorem length_unmet_meet_newParents (c : Catalog) (met : List String) (written : List TypeName) :
    (unmet c.typeNames (meet met (newParents c met written))).length + (newParents c met written).length
      ≤ (unmet c.typeNames met).length := by
  induction written generalizing met with
  | nil => simp [newParents, meet]
  | cons parent more ih =>
    unfold newParents
    split
    · exact ih met
    · next info found =>
      split
      · exact ih met
      · next fresh =>
        have known : info.fullName ∈ c.typeNames := by
          rw [fullName_of_findType? found]; exact mem_typeNames_of_findType? found
        have new : info.fullName ∉ met := by simpa using fresh
        have fewer := length_unmet_cons_lt known new
        have rest := ih (info.fullName :: met)
        simp only [meet, List.foldl_cons, List.length_cons, ResolvedType.fullName] at rest ⊢
        omega

/-- The queue and everything reached from it, breadth first. -/
def ancestryFrom (c : Catalog) (met : List String) : List ResolvedType → List ResolvedType
  | [] => []
  | t :: queue =>
    let found := c.newParents met (parents t)
    t :: ancestryFrom c (meet met found) (queue ++ found)
termination_by queue => (unmet c.typeNames met).length + queue.length
decreasing_by
  have := c.length_unmet_meet_newParents met (parents t)
  simp only [List.length_append, List.length_cons]
  omega

/-- The type followed by its bases. -/
def ancestry (c : Catalog) (t : ResolvedType) : List ResolvedType := c.ancestryFrom [t.fullName] [t]

/-- The names of the base type and the interfaces, as declared. -/
def declaredParents (info : TypeInfo) : List String :=
  (info.baseType.toList ++ info.interfaces).map fun written => TypeName.canonicalBase ⟨written⟩

/-- The names not met before, each once. -/
def newNames (met : List String) : List String → List String
  | [] => []
  | name :: more =>
    if met.contains name then newNames met more else name :: newNames (name :: met) more

def meetNames (met names : List String) : List String := names.foldl (fun met name => name :: met) met

theorem length_unmet_meetNames (c : Catalog) (met names : List String) :
    (unmet c.typeNames (meetNames met (newNames met names))).length +
      ((newNames met names).filterMap c.findType?).length ≤ (unmet c.typeNames met).length := by
  induction names generalizing met with
  | nil => simp [newNames, meetNames]
  | cons name more ih =>
    unfold newNames
    split
    · exact ih met
    · next fresh =>
      have rest := ih (name :: met)
      have still := length_unmet_cons_le c.typeNames met name
      simp only [meetNames, List.foldl_cons, List.filterMap_cons] at rest ⊢
      split
      · omega
      · next info found =>
        have new : name ∉ met := by simpa using fresh
        have fewer := length_unmet_cons_lt (mem_typeNames_of_findType? found) new
        simp only [List.length_cons]
        omega

/-- The names met and those of all declared parents reached from the queue. -/
def supertypeNamesFrom (c : Catalog) (met : List String) : List TypeInfo → List String
  | [] => met
  | info :: queue =>
    let names := newNames met (declaredParents info)
    supertypeNamesFrom c (meetNames met names) (queue ++ names.filterMap c.findType?)
termination_by queue => (unmet c.typeNames met).length + queue.length
decreasing_by
  have := c.length_unmet_meetNames met (declaredParents info)
  simp only [List.length_append, List.length_cons]
  omega

/-- The names of everything the type derives from, its own name and the root of all types included. -/
def supertypeNames (c : Catalog) (t : ResolvedType) : List String :=
  c.supertypeNamesFrom (if t.fullName = objectType then [objectType] else [objectType, t.fullName]) [t.info]

end Typeahead.Catalog
