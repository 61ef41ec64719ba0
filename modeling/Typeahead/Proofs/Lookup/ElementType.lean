import Typeahead.Lookup.Head
import Typeahead.Proofs.Catalog.Inheritance

namespace Typeahead.Catalog

/-- The interface of all that can be enumerated. -/
def enumerableType : String := "System.Collections.Generic.IEnumerable"

/-- The base type and the interfaces as they are written. -/
def writtenParents (info : TypeInfo) : List String := info.baseType.toList ++ info.interfaces

/-- The type is or derives from the interface applied to an element, with parameters replaced by arguments. -/
inductive Enumerates (c : Catalog) : ResolvedType → TypeName → Prop
  | itself {t : ResolvedType} {element : TypeName} : t.fullName = enumerableType → t.arguments = [element] →
      Enumerates c t element
  | declared {t : ResolvedType} {written : String} {element : TypeName} : written ∈ writtenParents t.info →
      (t.substitute written).canonicalBase = enumerableType → (t.substitute written).arguments = [element] →
      Enumerates c t element
  | inherited {t : ResolvedType} {written : String} {info : TypeInfo} {element : TypeName} :
      written ∈ writtenParents t.info → c.findType? (t.substitute written).canonicalBase = some info →
      Enumerates c { info, arguments := (t.substitute written).arguments } element → Enumerates c t element

/-- The type derives from the name applied to arguments over its parameters, its last parameter for the last one. -/
structure LendsLast (info : TypeInfo) (name : DottedName) (as : TypeArguments) : Prop where
  written : (applied name as).text ∈ writtenParents info
  isOver : as.IsOver info.genericParameters
  free : String.ofList name.text ∉ info.genericParameters
  distinct : info.genericParameters.Nodup
  last : ∃ parameter : DottedName, as.terms.getLast? = some (simple parameter) ∧
    info.genericParameters.getLast? = some (String.ofList parameter.text)

/-- The last parameter is handed on, from base to base, to the interface. -/
inductive HandsOnLast (c : Catalog) : TypeInfo → Prop
  | itself {info : TypeInfo} : info.fullName = enumerableType → info.genericParameters.length = 1 → HandsOnLast c info
  | declared {info : TypeInfo} {name : DottedName} {as : TypeArguments} : LendsLast info name as →
      String.ofList name.text = enumerableType → as.terms.length = 1 → HandsOnLast c info
  | inherited {info next : TypeInfo} {name : DottedName} {as : TypeArguments} : LendsLast info name as →
      Names c name next → as.terms.length = next.genericParameters.length → HandsOnLast c next → HandsOnLast c info

variable {c : Catalog} {info : TypeInfo} {name : DottedName} {as : TypeArguments}

/-- The last of some distinct parameters is bound to the last argument. -/
theorem bindings_last {parameters : List String} {arguments : List TypeTerm} {parameter : String}
    (distinct : parameters.Nodup) (full : arguments.length = parameters.length)
    (last : parameters.getLast? = some parameter) : bindings parameters arguments parameter = arguments.getLast? := by
  obtain ⟨before, rfl⟩ := List.getLast?_eq_some_iff.mp last
  have fresh : parameter ∉ before := fun repeated => (List.nodup_append.mp distinct).2.2 _ repeated _ (by simp) rfl
  have nonempty : arguments ≠ [] := by
    rintro rfl
    simp at full
  obtain ⟨first, argument, rfl⟩ := (List.eq_nil_or_concat' arguments).resolve_left nonempty
  have same : before.length = first.length := by simpa using full.symm
  have unbound : (before.zip first).lookup parameter = none :=
    bindings_eq_none before first fresh
  rw [bindings, List.zip_append same, List.lookup_append, unbound]
  simp

/-- What a type that lends its last parameter derives from, in the place where the type is used. -/
theorem LendsLast.substitute_eq (lends : LendsLast info name as) {arguments : List TypeTerm}
    (full : arguments.length = info.genericParameters.length) :
    ∃ inPlace : TypeArguments, (use info arguments).substitute (applied name as).text = applied name inPlace ∧
      inPlace.terms.length = as.terms.length ∧ inPlace.terms.getLast? = arguments.getLast? := by
  refine ⟨as.subst (bindings info.genericParameters arguments),
    substitute_applied arguments lends.free lends.isOver, ?_, ?_⟩
  · rw [terms_subst, List.length_map]
  · obtain ⟨parameter, isLast, own⟩ := lends.last
    have bound := bindings_last lends.distinct full own
    rw [terms_subst, List.getLast?_map, isLast, Option.map_some, simple, TypeTerm.subst, bound]
    cases given : arguments.getLast? with
    | some argument => rfl
    | none =>
      rw [List.getLast?_eq_none_iff.mp given] at full
      rw [List.eq_nil_of_length_eq_zero full.symm] at own
      exact absurd own (by simp)

/-- A type that hands on its last parameter enumerates its last argument. -/
theorem HandsOnLast.enumerates (handsOn : HandsOnLast c info) {arguments : List TypeTerm}
    (full : arguments.length = info.genericParameters.length) :
    ∃ element, arguments.getLast? = some element ∧ Enumerates c (use info arguments) element.typeName := by
  have only {terms : List TypeTerm} (one : terms.length = 1) :
      ∃ element, terms.getLast? = some element ∧ terms.map (·.typeName) = [element.typeName] := by
    obtain ⟨element, rfl⟩ := List.length_eq_one_iff.mp one
    exact ⟨element, rfl, rfl⟩
  induction handsOn generalizing arguments with
  | itself isEnumerable one =>
    obtain ⟨element, last, whole⟩ := only (full.trans one)
    exact ⟨element, last, .itself isEnumerable whole⟩
  | @declared info name as lends isEnumerable one =>
    obtain ⟨inPlace, written, length, last⟩ := lends.substitute_eq full
    obtain ⟨element, isLast, whole⟩ := only (length.trans one)
    have noAlias : TypeName.keywordAlias? (String.ofList name.text) = none := by
      rw [isEnumerable]
      decide
    refine ⟨element, last ▸ isLast, .declared lends.written ?_ ?_⟩
    · rw [written, canonicalBase_applied noAlias, isEnumerable]
    · rw [written, arguments_applied, whole]
  | @inherited info next name as lends named fits _ ih =>
    obtain ⟨inPlace, written, length, last⟩ := lends.substitute_eq full
    obtain ⟨element, isLast, enumerates⟩ := ih (length.trans fits)
    have noAlias := named.noAlias
    rw [named.fullName] at noAlias
    have found : c.findType? (applied name inPlace).canonicalBase = some next := by
      rw [canonicalBase_applied noAlias, ← named.fullName, named.found]
    refine ⟨element, last ▸ isLast, .inherited lends.written (written ▸ found) ?_⟩
    rw [written, arguments_applied]
    exact enumerates

end Typeahead.Catalog

namespace Typeahead.Lookup

open Text Catalog Source

namespace Scope

/-- The type of the collection of a `foreach` loop whose variable is implicitly typed: the variable counts among
those that may follow each other. -/
def collectionType (s : Scope) (collection : String) : Walk :=
  s.expressionTypeWith (fun v => s.variableTypeWithin (inferenceDepth - 1) v) collection

/-- What an element of the type is taken to be: what the element of an array means, the type of an indexer, or
what the last argument means. -/
inductive Yields (s : Scope) (t u : ResolvedType) : Prop
  | array {element : TypeName} : t.element = some element → s.resolve? element.text = some u → Yields s t u
  | indexer {found : Found} : t.element = none → s.indexer? t = some found → s.typeOf? found = some u → Yields s t u
  | lastArgument {last : TypeName} : t.element = none → s.indexer? t = none → t.arguments.getLast? = some last →
      s.resolve? last.text = some u → Yields s t u

variable {s : Scope} {t u : ResolvedType}

theorem elementOf?_eq_some_iff : s.elementOf? t = some u ↔ Yields s t u := by
  constructor
  · intro isElement
    unfold elementOf? at isElement
    split at isElement
    · next element array => exact .array array isElement
    · next noArray =>
      split at isElement
      · next found indexed => exact .indexer noArray indexed isElement
      · next noIndexer =>
        obtain ⟨last, isLast, means⟩ := Option.bind_eq_some_iff.mp isElement
        exact .lastArgument noArray noIndexer isLast means
  · intro yields
    unfold elementOf?
    cases yields with
    | array array means => rw [array]; exact means
    | indexer noArray indexed means => rw [noArray]; simp only [indexed]; exact means
    | lastArgument noArray noIndexer isLast means =>
      rw [noArray]
      simp only [noIndexer, isLast, Option.bind_some]
      exact means

/-- Where the last argument means a type, an element is of that type if there is no indexer, or if the type of the
indexer is the argument and no alias. -/
theorem elementOf?_of_lastArgument {element : TypeTerm} (noArray : t.element = none)
    (isLast : t.arguments.getLast? = some element.typeName) (means : s.resolve? element.typeName.text = some u)
    (indexed : ∀ found, s.indexer? t = some found →
      found.typeName = element.typeName ∧
        s.context.expandAlias element.typeName.text = element.typeName.text) :
    s.elementOf? t = some u := by
  rw [elementOf?_eq_some_iff]
  cases indexes : s.indexer? t with
  | none => exact .lastArgument noArray indexes isLast means
  | some found =>
    obtain ⟨typed, noAlias⟩ := indexed found indexes
    have trimmed : String.ofList (trim element.typeName.text.toList) = element.typeName.text := by
      simp [TypeTerm.typeName, element.isTrimmed.trim_eq]
    rw [resolve?, trimmed, noAlias] at means
    refine .indexer noArray indexes ?_
    rw [typeOf?, resolveMember?, typed, means, Option.some_or]

/-- The type of the variable of a loop is that of an element. -/
theorem variableType_of_foreach {v : Variable} {collection : String} (implicit : v.typeName = "var")
    (each : v.initializer = some (.elementOf collection)) (ofType : s.collectionType collection = .type t) :
    s.variableType v = .ofType? (s.elementOf? t) := by
  have unwritten : ¬ v.typeName ≠ "var" := not_not.mpr implicit
  rw [variableType, inferenceDepth, variableTypeWithin, if_neg unwritten]
  simp only [each]
  rw [collectionType, inferenceDepth] at ofType
  rw [ofType]
  rfl

/-- The generic argument of the parameter that takes the receiver stands for an element of the receiver. -/
theorem extensionResult_of_elementOf? {m : MemberInfo} {first : ParameterInfo} {more : List ParameterInfo}
    {source : TypeName} (takes : m.parameters = first :: more)
    (isArgument : TypeName.arguments ⟨first.typeName⟩ = [source]) (isParameter : source.text ∈ m.genericParameters)
    (applies : first.typeName ∉ m.genericParameters) (isElement : s.elementOf? t = some u) :
    s.extensionResult t m = TypeName.substitute ⟨m.typeName⟩ [source.text] [writtenName u] := by
  have noParameter : ¬ m.genericParameters.contains first.typeName = true :=
    fun contains => applies (List.contains_iff_mem.mp contains)
  rw [extensionResult, takes]
  simp only [if_neg noParameter, isElement, isArgument]
  simp [isParameter]

/-- The variable of a `foreach` loop. Where the collection is of a type, the variable has the type of what an indexer
yields, of the array's element or of the last argument, and extension methods for an interface applied to a parameter
bind the parameter to the same type. If the type hands its last parameter on to the interface of all that can be
enumerated, this is what it enumerates, provided that it has no indexer, or one of the type of its last argument where
this is no alias. -/
theorem foreach_element_type (s : Scope) {v : Variable} {collection : String} {t : ResolvedType}
    (implicit : v.typeName = "var") (each : v.initializer = some (.elementOf collection))
    (ofType : s.collectionType collection = .type t) :
    s.variableType v = .ofType? (s.elementOf? t) ∧
      (∀ u, s.elementOf? t = some u ↔ Yields s t u) ∧
      (∀ m first more source u, m.parameters = first :: more → TypeName.arguments ⟨first.typeName⟩ = [source] →
        source.text ∈ m.genericParameters → first.typeName ∉ m.genericParameters → s.elementOf? t = some u →
        s.extensionResult t m = TypeName.substitute ⟨m.typeName⟩ [source.text] [writtenName u]) ∧
      ∀ info arguments, t = use info arguments → arguments.length = info.genericParameters.length →
        HandsOnLast s.catalog info →
        ∃ element, t.arguments.getLast? = some element ∧ Enumerates s.catalog t element ∧
          ∀ u, s.resolve? element.text = some u →
            (∀ found, s.indexer? t = some found →
              found.typeName = element ∧ s.context.expandAlias element.text = element.text) →
            s.elementOf? t = some u := by
  refine ⟨variableType_of_foreach implicit each ofType, fun u => elementOf?_eq_some_iff, ?_, ?_⟩
  · intro m first more source u takes isArgument isParameter applies isElement
    exact extensionResult_of_elementOf? takes isArgument isParameter applies isElement
  · rintro info arguments rfl full handsOn
    obtain ⟨element, isLast, enumerates⟩ := handsOn.enumerates full
    have last : (use info arguments).arguments.getLast? = some element.typeName := by
      rw [use, List.getLast?_map, isLast, Option.map_some]
    exact ⟨element.typeName, last, enumerates, fun u means indexed =>
      elementOf?_of_lastArgument rfl last means indexed⟩

def wool : TypeInfo := { name := "Wool", kind := .classType }

def copper : TypeInfo := { name := "Copper", kind := .classType }

/-- A type with an indexer that enumerates its last argument by way of an interface of its own. -/
def rack : TypeInfo :=
  { name := "Rack", kind := .classType, genericParameters := ["TWare"], interfaces := ["Rank<TWare>"]
    members := [{ name := "Item", kind := .property, typeName := "TWare" }] }

def rank : TypeInfo :=
  { name := "Rank", kind := .interfaceType, genericParameters := ["TWare"]
    interfaces := ["System.Collections.Generic.IEnumerable<TWare>"] }

/-- A type that enumerates pairs of its arguments, with an indexer for the second ones. -/
def ledger : TypeInfo :=
  { name := "Ledger", kind := .classType, genericParameters := ["TKey", "TValue"]
    interfaces := ["System.Collections.Generic.IEnumerable<Pair<TKey, TValue>>"]
    members := [{ name := "Item", kind := .property, typeName := "TValue" }] }

def pair : TypeInfo := { name := "Pair", kind := .structType, genericParameters := ["TKey", "TValue"] }

def firstMethod : MemberInfo :=
  { name := "First", kind := .method, typeName := "TSource", genericParameters := ["TSource"]
    parameters := [⟨"source", "System.Collections.Generic.IEnumerable<TSource>"⟩]
    isStatic := true, isExtension := true }

def collections : Catalog := catalogOf [wool, copper, rack, rank, ledger, pair]

/-- The scope at the end of code. -/
def scopeBehind (code : String) : Scope :=
  { catalog := collections
    context := Context.of code.toList code.length
    nonPublic := false }

def rackScope : Scope := scopeBehind "class C \x7b void M(Rack<Wool> r) \x7b foreach (var x in r) \x7b "

def ledgerScope : Scope := scopeBehind "class C \x7b void M(Ledger<Wool, Copper> l) \x7b foreach (var x in l) \x7b "

def aliasScope : Scope :=
  scopeBehind "using Fibre = Wool; class C \x7b void M(Rack<Fibre> f) \x7b foreach (var x in f) \x7b "

/-- The variable of the loop. -/
def loopVariable (start stop : Nat) (collection : String) : Variable :=
  ⟨"x", "var", ⟨start, stop⟩, false, .localVariable, some (.elementOf collection)⟩

/-- The parameter for its only argument. -/
def onlyWare : TypeArguments := .cons noBlanks (simple (dotted "TWare")) noBlanks .nil

theorem handsOnLast_rack : HandsOnLast collections rack := by
  have toRank : LendsLast rack (dotted "Rank") onlyWare :=
    ⟨by decide, ⟨trivial, trivial⟩, by decide, by decide, dotted "TWare", rfl, rfl⟩
  have toEnumerable : LendsLast rank (dotted "System.Collections.Generic.IEnumerable") onlyWare :=
    ⟨by decide, ⟨trivial, trivial⟩, by decide, by decide, dotted "TWare", rfl, rfl⟩
  have named : Names collections (dotted "Rank") rank := ⟨by decide, by decide +kernel, by decide⟩
  exact .inherited toRank named rfl (.declared toEnumerable rfl rfl)

theorem foreach_element_type_rack :
    let v := loopVariable 46 56 "r"
    let t := use rack [simple (dotted "Wool")]
    v ∈ rackScope.context.declarations.vars ∧ rackScope.collectionType "r" = .type t ∧
      Enumerates collections t ⟨"Wool"⟩ ∧ rackScope.variableType v = .type { info := wool } := by
  intro v t
  obtain ⟨isDeclared, ofType, means, noAlias⟩ :
      v ∈ rackScope.context.declarations.vars ∧ rackScope.collectionType "r" = .type t ∧
        rackScope.resolve? "Wool" = some { info := wool } ∧ rackScope.context.expandAlias "Wool" = "Wool" := by
    decide +kernel
  have indexes : rackScope.indexer? t = some ⟨{ name := "Item", kind := .property, typeName := "TWare" }, t⟩ := by
    decide +kernel
  obtain ⟨ofElement, -, -, handedOn⟩ := foreach_element_type rackScope (v := v) rfl rfl ofType
  obtain ⟨element, last, enumerates, isElement⟩ := handedOn rack _ rfl rfl handsOnLast_rack
  obtain rfl : ⟨"Wool"⟩ = element := Option.some.inj last
  refine ⟨isDeclared, ofType, enumerates, ofElement.trans ?_⟩
  rw [isElement _ means]
  · rfl
  · intro found indexed
    obtain rfl := Option.some.inj (indexes.symm.trans indexed)
    exact ⟨by decide +kernel, noAlias⟩

/-- A ledger enumerates pairs, and the variable of a loop over it and what an extension method binds are of the type
of its indexer. A rack of a type under an alias enumerates that type, and the variable of a loop over it has none. -/
theorem indexer_type_is_taken_for_element :
    let l : ResolvedType := { info := ledger, arguments := [⟨"Wool"⟩, ⟨"Copper"⟩] }
    let f := use rack [simple (dotted "Fibre")]
    (Enumerates collections l ⟨"Pair<Wool, Copper>"⟩ ∧
        loopVariable 56 66 "l" ∈ ledgerScope.context.declarations.vars ∧
        ledgerScope.collectionType "l" = .type l ∧
        ledgerScope.resolve? "Pair<Wool, Copper>" = some { info := pair, arguments := [⟨"Wool"⟩, ⟨"Copper"⟩] } ∧
        ledgerScope.variableType (loopVariable 56 66 "l") = .type { info := copper } ∧
        ledgerScope.extensionResult l firstMethod = ⟨"Copper"⟩) ∧
      Enumerates collections f ⟨"Fibre"⟩ ∧
        loopVariable 67 77 "f" ∈ aliasScope.context.declarations.vars ∧
        aliasScope.collectionType "f" = .type f ∧
        aliasScope.resolve? "Fibre" = some { info := wool } ∧
        aliasScope.variableType (loopVariable 67 77 "f") = .failed := by
  intro l f
  have pairs : "System.Collections.Generic.IEnumerable<Pair<TKey, TValue>>" ∈ writtenParents ledger := by decide
  have ofLedger : Enumerates collections l ⟨"Pair<Wool, Copper>"⟩ :=
    .declared pairs (by decide +kernel) (by decide +kernel)
  have full : [simple (dotted "Fibre")].length = rack.genericParameters.length := rfl
  obtain ⟨element, last, ofRack⟩ := handsOnLast_rack.enumerates full
  obtain rfl := Option.some.inj last
  exact ⟨⟨ofLedger, by decide +kernel⟩, ofRack, by decide +kernel⟩

end Scope

end Typeahead.Lookup
