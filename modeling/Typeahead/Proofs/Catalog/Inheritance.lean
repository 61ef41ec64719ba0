import Mathlib.Data.List.Nodup
import Typeahead.Proofs.Catalog.TypeTerm
import Typeahead.Proofs.Restriction.Members

namespace Typeahead.Catalog

open Text

variable {c : Catalog}

theorem mem_meet {met : List String} {types : List ResolvedType} {name : String} :
    name ∈ meet met types ↔ name ∈ met ∨ name ∈ types.map (·.fullName) := by
  induction types generalizing met with
  | nil => simp [meet]
  | cons t types ih =>
    have later := @ih (t.fullName :: met)
    simp only [meet, List.foldl_cons] at later ⊢
    rw [later]
    simp only [List.mem_cons, List.map_cons]
    tauto

/-- A new parent is what one of the references means. -/
theorem exists_of_mem_newParents {met : List String} {written : List TypeName} {parent : ResolvedType}
    (new : parent ∈ c.newParents met written) :
    ∃ reference ∈ written, ∃ info, c.findType? reference.canonicalBase = some info ∧
      parent = { info, arguments := reference.arguments } := by
  induction written generalizing met with
  | nil => simp [newParents] at new
  | cons reference more ih =>
    have later {met : List String} (new : parent ∈ c.newParents met more) :
        ∃ other ∈ reference :: more, ∃ info, c.findType? other.canonicalBase = some info ∧
          parent = { info, arguments := other.arguments } := by
      obtain ⟨other, inside, means⟩ := ih new
      exact ⟨other, List.mem_cons_of_mem _ inside, means⟩
    unfold newParents at new
    split at new
    · exact later new
    · next info found =>
      split at new
      · exact later new
      · rcases List.mem_cons.mp new with rfl | new
        · exact ⟨reference, List.mem_cons_self, info, found, rfl⟩
        · exact later new

/-- The parents that are new have names that were not met, each once. -/
theorem nodup_newParents (met : List String) (written : List TypeName) :
    ((c.newParents met written).map (·.fullName)).Nodup ∧
      ∀ t ∈ c.newParents met written, t.fullName ∉ met := by
  induction written generalizing met with
  | nil => simp [newParents]
  | cons parent more ih =>
    unfold newParents
    split
    · exact ih met
    · next info found =>
      split
      · exact ih met
      · next fresh =>
        obtain ⟨distinct, apart⟩ := ih (info.fullName :: met)
        have new : info.fullName ∉ met := by simpa using fresh
        refine ⟨List.nodup_cons.mpr ⟨fun repeated => ?_, distinct⟩, ?_⟩
        · obtain ⟨t, member, same⟩ := List.mem_map.mp repeated
          exact apart t member (same ▸ List.mem_cons_self)
        · rintro t member
          rcases List.mem_cons.mp member with rfl | later
          · exact new
          · exact fun inside => apart t later (List.mem_cons_of_mem _ inside)

/-- The search adds to its queue only types of names that were not met. -/
theorem exists_ancestryFrom_eq_append (met : List String) (queue : List ResolvedType) :
    ∃ found, c.ancestryFrom met queue = queue ++ found ∧ (found.map (·.fullName)).Nodup ∧
      ∀ t ∈ found, t.fullName ∉ met := by
  fun_induction ancestryFrom c met queue with
  | case1 => exact ⟨[], rfl, List.nodup_nil, by simp⟩
  | case2 met t queue new ih =>
    obtain ⟨found, whole, distinct, apart⟩ := ih
    obtain ⟨distinctNew, apartNew⟩ := nodup_newParents (c := c) met (parents t)
    refine ⟨new ++ found, by rw [whole]; simp, ?_, fun a member => ?_⟩
    · rw [List.map_append]
      refine List.nodup_append.mpr ⟨distinctNew, distinct, fun a here b there same => ?_⟩
      obtain ⟨u, member, rfl⟩ := List.mem_map.mp there
      exact apart u member (mem_meet.mpr (.inr (same ▸ here)))
    · rcases List.mem_append.mp member with here | there
      · exact apartNew a here
      · exact fun inside => apart a there (mem_meet.mpr (.inl inside))

/-- An ancestry meets every full name once. -/
theorem nodup_ancestry (t : ResolvedType) : ((c.ancestry t).map (·.fullName)).Nodup := by
  obtain ⟨found, whole, distinct, apart⟩ := exists_ancestryFrom_eq_append (c := c) [t.fullName] [t]
  rw [ancestry, whole, List.singleton_append, List.map_cons]
  refine List.nodup_cons.mpr ⟨fun repeated => ?_, distinct⟩
  obtain ⟨u, member, same⟩ := List.mem_map.mp repeated
  exact apart u member (by simp [same])

/-- A type of which no parent is found has itself alone for its ancestry. -/
theorem ancestry_of_noParent {t : ResolvedType} (noParent : c.newParents [t.fullName] (parents t) = []) :
    c.ancestry t = [t] := by
  rw [ancestry, ancestryFrom, noParent, List.nil_append, ancestryFrom]

/-- A class as a base, with the arguments it is applied to there. -/
structure Link where
  name : DottedName
  arguments : TypeArguments
  info : TypeInfo

/-- The name means the class: it is found under it, and the name is no word of the language. -/
structure Names (c : Catalog) (name : DottedName) (info : TypeInfo) : Prop where
  fullName : info.fullName = String.ofList name.text
  found : c.findType? info.fullName = some info
  noAlias : TypeName.keywordAlias? info.fullName = none

/-- Each class of a chain derives from the next one, applied to types over its own parameters. -/
inductive DerivesAlong (c : Catalog) : TypeInfo → List Link → Prop
  | last (info : TypeInfo) : DerivesAlong c info []
  | next {info : TypeInfo} {link : Link} {links : List Link} :
      info.kind = .classType → info.baseType = some (applied link.name link.arguments).text →
      Names c link.name link.info → link.info.fullName ∉ info.genericParameters →
      link.arguments.IsOver info.genericParameters → DerivesAlong c link.info links →
      DerivesAlong c info (link :: links)

/-- The classes of a chain with their arguments in terms of the use of its first class: each hands on what
its base is applied to, with its own parameters replaced by its own arguments. -/
def along (info : TypeInfo) (arguments : List TypeTerm) : List Link → List (TypeInfo × List TypeTerm)
  | [] => [(info, arguments)]
  | link :: links =>
    (info, arguments) ::
      along link.info (link.arguments.terms.map (·.subst (bindings info.genericParameters arguments))) links

/-- The class with its arguments as they are written. -/
def use (info : TypeInfo) (arguments : List TypeTerm) : ResolvedType :=
  { info, arguments := arguments.map (·.typeName) }

theorem terms_subst (bound : String → Option TypeTerm) :
    ∀ as : TypeArguments, (as.subst bound).terms = as.terms.map (·.subst bound)
  | .nil => rfl
  | .cons _ _ _ more => by simp only [TypeArguments.subst, TypeArguments.terms, terms_subst bound more, List.map_cons]

/-- A base that is no parameter stays applied, its arguments replaced. -/
theorem substitute_applied {parameters : List String} (arguments : List TypeTerm) {name : DottedName}
    {as : TypeArguments} (free : String.ofList name.text ∉ parameters) (isOver : as.IsOver parameters) :
    (applied name as).substitute parameters (arguments.map (·.typeName)) =
      applied name (as.subst (bindings parameters arguments)) := by
  cases as with
  | nil =>
    have bare : (TypeTerm.apply name .nil).IsOver parameters := trivial
    rw [applied, substitute_typeName _ _ _ bare, TypeTerm.subst, bindings_eq_none parameters arguments free]
    rfl
  | cons before first behind more =>
    have whole : (TypeTerm.apply name (.cons before first behind more)).IsOver parameters := ⟨free, isOver⟩
    rw [applied, substitute_typeName _ _ _ whole]
    rfl

theorem parents_use {info : TypeInfo} {link : Link} (arguments : List TypeTerm) (isClass : info.kind = .classType)
    (base : info.baseType = some (applied link.name link.arguments).text) (named : Names c link.name link.info)
    (free : link.info.fullName ∉ info.genericParameters) (isOver : link.arguments.IsOver info.genericParameters) :
    parents (use info arguments) =
      [applied link.name (link.arguments.subst (bindings info.genericParameters arguments))] := by
  rw [named.fullName] at free
  have noInterface : ¬ info.kind = .interfaceType := by simp [isClass]
  simp only [parents, use, base, noInterface, if_false, ResolvedType.substitute]
  rw [substitute_applied arguments free isOver]

theorem newParents_applied {met : List String} {name : DottedName} {info : TypeInfo} (named : Names c name info)
    (fresh : info.fullName ∉ met) (as : TypeArguments) :
    c.newParents met [applied name as] = [use info as.terms] := by
  have noAlias := named.noAlias
  rw [named.fullName] at noAlias
  simp [newParents, canonicalBase_applied noAlias, ← named.fullName, named.found, fresh, use, arguments_applied]

/-- The search goes along the chain as long as its names are new. -/
theorem along_prefix_ancestryFrom {info : TypeInfo} {links : List Link} (chain : DerivesAlong c info links)
    {met : List String} (fresh : ∀ link ∈ links, link.info.fullName ∉ met)
    (distinct : (links.map (·.info.fullName)).Nodup) (arguments : List TypeTerm) :
    (along info arguments links).map (fun (info, arguments) => use info arguments) <+:
      c.ancestryFrom met [use info arguments] := by
  induction chain generalizing met arguments with
  | last info => exact ⟨_, by rw [ancestryFrom]; rfl⟩
  | @next info link links isClass base named free isOver chain ih =>
    have new := fresh link List.mem_cons_self
    obtain ⟨once, distinct⟩ := List.nodup_cons.mp distinct
    have later : ∀ other ∈ links, other.info.fullName ∉ link.info.fullName :: met := by
      intro other member repeated
      rcases List.mem_cons.mp repeated with same | before
      · exact once (List.mem_map.mpr ⟨other, member, same⟩)
      · exact fresh other (List.mem_cons_of_mem _ member) before
    obtain ⟨others, whole⟩ := ih later distinct
      (link.arguments.terms.map (·.subst (bindings info.genericParameters arguments)))
    rw [ancestryFrom]
    simp only [parents_use arguments isClass base named free isOver, newParents_applied named new, terms_subst]
    exact ⟨others, by rw [along, List.map_cons, List.cons_append, whole]; rfl⟩

/-- The written use of a class means the class with the arguments written. -/
theorem resolve?_applied {name : DottedName} {info : TypeInfo} (named : Names c name info) (as : TypeArguments)
    (qualifiers : List String) :
    c.resolve? (applied name as).text ("" :: qualifiers) = some (use info as.terms) := by
  have noAlias := named.noAlias
  rw [named.fullName] at noAlias
  have trimmed : (⟨String.ofList (trim (applied name as).text.toList)⟩ : TypeName) = applied name as := by
    simp [applied, TypeTerm.typeName, (TypeTerm.apply name as).isTrimmed.trim_eq]
  have written : (applied name as).text ≠ "" := by
    intro empty
    have none := congrArg String.toList empty
    exact (TypeTerm.apply name as).isTrimmed.nonempty (by simpa [applied, TypeTerm.typeName] using none)
  unfold resolve?
  rw [trimmed]
  simp only [if_neg written, arrayElement?_applied, canonicalBase_applied noAlias, arguments_applied,
    ← named.fullName]
  have first : (candidates info.fullName ("" :: qualifiers)).findSome? c.findType? = some info := by
    simp [candidates, spellings, qualify, named.found]
  rw [first]
  rfl

/-- Type arguments compose along inheritance. The ancestry of a class used with arguments begins with the
classes of the chain, each with the arguments that come down to it, and what the type of a member found on
one of them means is that type with its parameters replaced by these. Parameters are replaced at each class
by themselves: one that bears the name of a parameter of another class is not mistaken for it. -/
theorem ancestry_along {first : TypeInfo} {links : List Link} (chain : DerivesAlong c first links)
    (distinct : (first.fullName :: links.map (·.info.fullName)).Nodup) (arguments : TypeArguments) :
    (∀ name qualifiers, Names c name first →
      c.resolve? (applied name arguments).text ("" :: qualifiers) = some (use first arguments.terms)) ∧
    (along first arguments.terms links).map (fun (info, arguments) => use info arguments) <+:
      c.ancestry (use first arguments.terms) ∧
    ∀ member mode nonPublic found,
      c.findMember? (use first arguments.terms) member mode nonPublic = some found →
      ∀ last composed, (last, composed) ∈ along first arguments.terms links →
        found.declaring.fullName = last.fullName →
      ∀ written : TypeTerm, written.IsOver last.genericParameters → found.member.typeName = written.typeName.text →
        found.typeName = (written.subst (bindings last.genericParameters composed)).typeName := by
  obtain ⟨start, distinct⟩ := List.nodup_cons.mp distinct
  have fresh : ∀ link ∈ links, link.info.fullName ∉ [first.fullName] := by
    intro link member same
    exact start (List.mem_map.mpr ⟨link, member, List.mem_singleton.mp same⟩)
  have goesAlong := along_prefix_ancestryFrom chain fresh distinct arguments.terms
  refine ⟨fun name qualifiers named => resolve?_applied named arguments qualifiers, goesAlong, ?_⟩
  intro member mode nonPublic found isFound last composed isLast declared written isOver asWritten
  obtain ⟨depth, above, -, -⟩ := mem_of_findMember? isFound
  have inAncestry : use last composed ∈ c.ancestry (use first arguments.terms) :=
    goesAlong.subset (List.mem_map.mpr ⟨(last, composed), isLast, rfl⟩)
  have declaring : found.declaring = use last composed :=
    List.inj_on_of_nodup_map (nodup_ancestry (use first arguments.terms)) (mem_ancestry_of_mem_numbered above)
      inAncestry declared
  rw [Found.typeName, ResolvedType.substitute, declaring, asWritten]
  exact substitute_typeName last.genericParameters composed written isOver

/-- A catalog of one assembly that serves every namespace. -/
def catalogOf (types : List TypeInfo) : Catalog := ⟨{ workspace := ["Lib"] }, [.memory [⟨"Lib", types⟩]]⟩

def dotted (text : String) (nonempty : text.toList.isEmpty = false := by rfl)
    (named : text.toList.all TypeName.isNameChar = true := by rfl) : DottedName :=
  ⟨text.toList, List.isEmpty_eq_false_iff.mp nonempty, List.all_eq_true.mp named⟩

def noBlanks : Blanks := ⟨[], by simp⟩

def oneBlank : Blanks := ⟨[' '], by simp [isBlank]⟩

/-- A name without arguments. -/
def simple (name : DottedName) : TypeTerm := .apply name .nil

/-- Three classes that name their parameters alike, in other orders. -/
def outerClass : TypeInfo :=
  { name := "Outer", kind := .classType, genericParameters := ["T", "U"], baseType := some "Middle<U, List<T>[]>" }

def middleClass : TypeInfo :=
  { name := "Middle", kind := .classType, genericParameters := ["T", "U"], baseType := some "Inner<Map<U,T?>>" }

def innerClass : TypeInfo := { name := "Inner", kind := .classType, genericParameters := ["T"] }

def middleLink : Link where
  name := dotted "Middle"
  arguments :=
    .cons noBlanks (simple (dotted "U")) noBlanks <|
      .cons oneBlank (.array (.apply (dotted "List") (.cons noBlanks (simple (dotted "T")) noBlanks .nil)))
        noBlanks .nil
  info := middleClass

def innerLink : Link where
  name := dotted "Inner"
  arguments :=
    .cons noBlanks
      (.apply (dotted "Map")
        (.cons noBlanks (simple (dotted "U")) noBlanks
          (.cons noBlanks (.nullable (simple (dotted "T"))) noBlanks .nil)))
      noBlanks .nil
  info := innerClass

def alikeClasses : Catalog := catalogOf [outerClass, middleClass, innerClass]

theorem ancestry_along_alike :
    DerivesAlong alikeClasses outerClass [middleLink, innerLink] ∧
      (outerClass.fullName :: [middleLink, innerLink].map (·.info.fullName)).Nodup ∧
      [{ info := outerClass, arguments := [⟨"int"⟩, ⟨"A.B"⟩] },
          { info := middleClass, arguments := [⟨"A.B"⟩, ⟨"List<int>[]"⟩] },
          { info := innerClass, arguments := [⟨"Map<List<int>[],A.B?>"⟩] }] <+:
        alikeClasses.ancestry { info := outerClass, arguments := [⟨"int"⟩, ⟨"A.B"⟩] } := by
  have middle : Names alikeClasses middleLink.name middleClass := ⟨by decide, by decide, by decide⟩
  have inner : Names alikeClasses innerLink.name innerClass := ⟨by decide, by decide, by decide⟩
  have chain : DerivesAlong alikeClasses outerClass [middleLink, innerLink] :=
    .next rfl (by decide) middle (by decide)
      (by simp [middleLink, outerClass, TypeArguments.IsOver, TypeTerm.IsOver, simple, dotted])
      (.next rfl (by decide) inner (by decide)
        (by simp [innerLink, middleLink, middleClass, TypeArguments.IsOver, TypeTerm.IsOver, simple, dotted])
        (.last innerClass))
  have distinct : (outerClass.fullName :: [middleLink, innerLink].map (·.info.fullName)).Nodup := by decide
  let arguments : TypeArguments :=
    .cons noBlanks (simple (dotted "int")) noBlanks (.cons noBlanks (simple (dotted "A.B")) noBlanks .nil)
  exact ⟨chain, distinct, (ancestry_along chain distinct arguments).2.1⟩

/-- A class that bears a word of the language for its name, and one that bears the name of a parameter of
the class that derives from it. -/
def wordClass : TypeInfo := { name := "string", kind := .classType }

def fromWord : TypeInfo := { name := "Text", kind := .classType, baseType := some "string" }

def parameterClass : TypeInfo := { name := "T", kind := .classType, genericParameters := ["X"] }

def fromParameter : TypeInfo :=
  { name := "Derived", kind := .classType, genericParameters := ["T"], baseType := some "T<T>" }

/-- Such a base is not met: the word stands for the type of the core library, and the name is replaced by the
parameter's argument. -/
theorem ancestry_misses_base :
    ((catalogOf [wordClass, fromWord]).findType? "string" = some wordClass ∧
      (catalogOf [wordClass, fromWord]).findType? "Text" = some fromWord ∧
      (catalogOf [wordClass, fromWord]).ancestry { info := fromWord } = [{ info := fromWord }]) ∧
    (catalogOf [parameterClass, fromParameter]).findType? "T" = some parameterClass ∧
      (catalogOf [parameterClass, fromParameter]).findType? "Derived" = some fromParameter ∧
      (catalogOf [parameterClass, fromParameter]).ancestry { info := fromParameter, arguments := [⟨"int"⟩] } =
        [{ info := fromParameter, arguments := [⟨"int"⟩] }] := by
  have wordIsAlias : (catalogOf [wordClass, fromWord]).ancestry { info := fromWord } = [{ info := fromWord }] :=
    ancestry_of_noParent (by decide)
  have nameIsReplaced : (catalogOf [parameterClass, fromParameter]).ancestry
      { info := fromParameter, arguments := [⟨"int"⟩] } = [{ info := fromParameter, arguments := [⟨"int"⟩] }] :=
    ancestry_of_noParent (by decide)
  exact ⟨⟨by decide, by decide, wordIsAlias⟩, by decide, by decide, nameIsReplaced⟩

end Typeahead.Catalog
