import Typeahead.Lookup.Code
import Typeahead.Proofs.Catalog.NamespaceTree
import Typeahead.Proofs.Lookup.CandidateSet
import Typeahead.Proofs.Lookup.ReceiverPrefix
import Typeahead.Proofs.Restriction.Members
import Typeahead.Proofs.Source.DirectiveTarget
import Typeahead.Proofs.Source.Enclosing

namespace Typeahead.Source

variable {ds : Declarations} {name : String} {caret : Nat}

theorem Declarations.mem_methodsIn_static {m : Method} :
    m ∈ ds.methodsIn .staticBody ↔ m ∈ ds.methods ∧ m.isStatic = true := List.mem_filter

theorem Declarations.mem_propertiesIn_static {p : Property} :
    p ∈ ds.propertiesIn .staticBody ↔ p ∈ ds.properties ∧ p.isStatic = true := List.mem_filter

theorem Declarations.of_mem_visibleVariables_static {v : Variable}
    (visible : v ∈ ds.visibleVariables .staticBody caret) :
    v ∈ ds.vars ∧ (v.isStatic = true ∨ v.kind ≠ .field) := by
  rcases List.mem_append.mp (List.mem_filter.mp visible).1 with isLocal | field
  · obtain ⟨declared, kind⟩ := List.mem_filter.mp isLocal
    exact ⟨declared, .inr (by simpa using kind)⟩
  · obtain ⟨declared, allowed⟩ := List.mem_filter.mp field
    exact ⟨declared, .inl (Bool.and_eq_true_iff.mp allowed).2⟩

theorem Declarations.of_findMethod?_static {m : Method} (found : ds.findMethod? name .staticBody = some m) :
    (m ∈ ds.methods ∧ m.isStatic = true) ∧ m.name = name :=
  ⟨mem_methodsIn_static.mp (List.mem_of_find?_eq_some found), by simpa using List.find?_some found⟩

theorem Declarations.of_findProperty?_static {p : Property} (found : ds.findProperty? name .staticBody = some p) :
    (p ∈ ds.properties ∧ p.isStatic = true) ∧ p.name = name :=
  ⟨mem_propertiesIn_static.mp (List.mem_of_find?_eq_some found), by simpa using List.find?_some found⟩

theorem Declarations.of_findVariable?_static {v : Variable}
    (found : ds.findVariable? name caret .staticBody = some v) :
    (v ∈ ds.vars ∧ (v.isStatic = true ∨ v.kind ≠ .field)) ∧ v.name = name :=
  ⟨of_mem_visibleVariables_static (List.mem_of_find?_eq_some found), by simpa using List.find?_some found⟩

/-- A static context is inside a type. -/
theorem Context.inType_of_static {source : List Char} {caret : Nat}
    (isStatic : (Context.of source caret).declContext = .staticBody) :
    ((Context.of source caret).beforeFirstType || (Context.of source caret).region.isNone) = false := by
  cases region : enclosingType (blank source) (Text.floorBoundary caret source) with
  | none => simp [Context.of, region] at isStatic
  | some r => simp [Context.of, region, isBeforeFirstType_eq_false region]

end Typeahead.Source

namespace Typeahead.Lookup

open Catalog Source

theorem mem_addOverloads {known added : List String} {signature : String}
    (member : signature ∈ addOverloads known added) : signature ∈ known ∨ signature ∈ added := by
  induction added generalizing known with
  | nil => exact .inl member
  | cons first added ih =>
    rcases ih member with extended | later
    · split at extended
      · exact .inl extended
      · rcases List.mem_append.mp extended with old | new
        · exact .inl old
        · exact .inr (List.mem_singleton.mp new ▸ List.mem_cons_self)
    · exact .inr (List.mem_cons_of_mem _ later)

theorem Item.mem_overloads_merge {existing repeated : Item} {signature : String}
    (member : signature ∈ (existing.merge repeated).overloads) :
    signature ∈ existing.overloads ∨ signature ∈ repeated.overloads := by
  unfold Item.merge at member
  split at member
  · split at member
    · exact .inl member
    · next only added => exact mem_addOverloads (added ▸ member)
    · next first second more added => exact mem_addOverloads (added ▸ member)
  · exact .inl member

/-- The overloads of an item are overloads of the items it was merged from. -/
theorem mem_overloads_of_mergeAll? {items : List Item} {item : Item} (made : mergeAll? items = some item)
    {signature : String} (member : signature ∈ item.overloads) : ∃ part ∈ items, signature ∈ part.overloads := by
  cases items with
  | nil => simp [mergeAll?] at made
  | cons first later =>
    obtain rfl := Option.some.inj made
    clear made
    induction later generalizing first with
    | nil => exact ⟨first, List.mem_cons_self, member⟩
    | cons second later ih =>
      obtain ⟨part, inside, here⟩ := ih (first.merge second) member
      rcases List.mem_cons.mp inside with rfl | behind
      · rcases Item.mem_overloads_merge here with old | new
        · exact ⟨first, List.mem_cons_self, old⟩
        · exact ⟨second, by simp, new⟩
      · exact ⟨part, by simp [behind], here⟩

/-- What an item of the list for a bare name shows. -/
inductive Shown where
  | variable (v : Variable)
  | method (m : Method)
  | property (p : Property)
  /-- A member of a type in the catalog. -/
  | member (f : Found)
  | type (t : TypeInfo)
  | namespaceName (name : String)

namespace Shown

def item : Shown → Item
  | .variable v => variableItem v "visible_scope"
  | .method m => methodItem m "visible_scope"
  | .property p => propertyItem p "visible_scope"
  | .member f => f.member.item false
  | .type t => t.item
  | .namespaceName name => namespaceItem name "visible_scope"

/-- What it means at the head of a chain. -/
def entity? (s : Scope) : Shown → Option Entity
  | .variable v => some (.variable v)
  | .method m => some (.method m)
  | .property p => some (.property p)
  | .member f => some (.inherited (if f.member.isVoid then .void else .ofType? (s.typeOf? f)))
  | .type _ | .namespaceName _ => none

/-- It can be used where there is no instance. -/
def NeedsNoInstance : Shown → Prop
  | .variable v => v.isStatic = true ∨ v.kind ≠ .field
  | .method m => m.isStatic = true
  | .property p => p.isStatic = true
  | .member f => f.member.isStatic = true
  | .type _ | .namespaceName _ => True

end Shown

namespace Scope

variable {s : Scope}

/-- Where the scope has it from. -/
def Offers (s : Scope) : Shown → Prop
  | .variable v => v ∈ s.context.declarations.vars ∨ v ∈ s.context.inherited.vars
  | .method m => m ∈ s.context.declarations.methods ∨ m ∈ s.context.inherited.methods
  | .property p => p ∈ s.context.declarations.properties ∨ p ∈ s.context.inherited.properties
  | .member f => ∃ t ∈ s.baseTypes ++ s.staticImports,
      f.declaring ∈ s.catalog.ancestry t ∧ f.member ∈ f.declaring.info.members
  | .type t => t ∈ s.importedTypes ∨ ∃ outer ∈ s.baseTypes ++ s.staticImports, t ∈ s.catalog.nestedTypes outer
  | .namespaceName name => name ∈ s.catalog.rootNamespaces

/-- It is in scope and can be used where there is no instance. -/
def OffersStatic (s : Scope) (shown : Shown) : Prop := s.Offers shown ∧ shown.NeedsNoInstance

/-- An item comes from things that can be used where there is no instance, each of its overloads too. -/
def ShowsStatics (s : Scope) (item : Item) : Prop :=
  ∃ parts : List Shown, mergeAll? (parts.map Shown.item) = some item ∧ (∀ part ∈ parts, s.OffersStatic part) ∧
    ∀ signature ∈ item.overloads, ∃ part ∈ parts, signature ∈ part.item.overloads

theorem showsStatics_of_mergeAll? {parts : List Shown} {item : Item}
    (made : mergeAll? (parts.map Shown.item) = some item) (offered : ∀ part ∈ parts, s.OffersStatic part) :
    s.ShowsStatics item := by
  refine ⟨parts, made, offered, fun signature member => ?_⟩
  obtain ⟨_, inside, here⟩ := mem_overloads_of_mergeAll? made member
  obtain ⟨part, isPart, rfl⟩ := List.mem_map.mp inside
  exact ⟨part, isPart, here⟩

theorem showsStatics_item {shown : Shown} (offered : s.OffersStatic shown) : s.ShowsStatics shown.item := by
  have made : mergeAll? ([shown].map Shown.item) = some shown.item := rfl
  exact showsStatics_of_mergeAll? made (by simpa using offered)

theorem exists_parts {items : List Item} (shows : ∀ item ∈ items, ∃ part, s.OffersStatic part ∧ part.item = item) :
    ∃ parts : List Shown, parts.map Shown.item = items ∧ ∀ part ∈ parts, s.OffersStatic part := by
  induction items with
  | nil => exact ⟨[], rfl, by simp⟩
  | cons item items ih =>
    obtain ⟨first, offered, rfl⟩ := shows item List.mem_cons_self
    obtain ⟨parts, rfl, others⟩ := ih fun item member => shows item (List.mem_cons_of_mem _ member)
    exact ⟨first :: parts, rfl, by simpa using ⟨offered, others⟩⟩

/-- Merging keeps that items show statics. -/
theorem showsStatics_of_mem_merged {items : List Item}
    (shows : ∀ item ∈ items, ∃ part, s.OffersStatic part ∧ part.item = item) {item : Item}
    (listed : item ∈ merged items) : s.ShowsStatics item := by
  have made := CandidateSet.mergeAll?_of_mem listed
  have kept : ∀ x ∈ items.filter (Item.isNamed item.displayText), ∃ part, s.OffersStatic part ∧ part.item = x :=
    fun x member => shows x (List.mem_filter.mp member).1
  obtain ⟨parts, same, offered⟩ := exists_parts kept
  exact showsStatics_of_mergeAll? (same ▸ made) offered

theorem exists_of_mem_reachableItems {t : ResolvedType} (known : t ∈ s.baseTypes ++ s.staticImports)
    {nonPublic inherited : Bool} {item : Item}
    (listed : item ∈ s.catalog.reachableItems t .typeStatics nonPublic inherited) :
    ∃ part, s.OffersStatic part ∧ part.item = item := by
  rcases List.mem_append.mp listed with isMember | isNested
  · obtain ⟨⟨depth, ancestor⟩, above, here⟩ := List.mem_flatMap.mp isMember
    obtain ⟨m, kept, rfl⟩ := List.mem_map.mp here
    obtain ⟨declared, lists⟩ := List.mem_filter.mp kept
    have isStatic : m.isStatic = true := by
      simp only [Catalog.lists, BindingMode.allows, Bool.and_eq_true] at lists
      exact lists.1.1.2
    exact ⟨.member ⟨m, ancestor⟩, ⟨⟨t, known, mem_ancestry_of_mem_numbered above, declared⟩, isStatic⟩, rfl⟩
  · obtain ⟨nested, kept, rfl⟩ := List.mem_map.mp isNested
    exact ⟨.type nested, ⟨.inr ⟨t, known, (List.mem_filter.mp kept).1⟩, trivial⟩, rfl⟩

theorem exists_of_mem_declaredItems (isStatic : s.context.declContext = .staticBody) {item : Item}
    (listed : item ∈ s.declaredItems) : ∃ part, s.OffersStatic part ∧ part.item = item := by
  simp only [declaredItems, isStatic, List.flatMap_cons, List.flatMap_nil, List.append_nil, List.mem_append,
    List.mem_map] at listed
  rcases listed with (⟨v, visible, rfl⟩ | ⟨v, visible, rfl⟩) |
    ((⟨m, inside, rfl⟩ | ⟨p, inside, rfl⟩) | (⟨m, inside, rfl⟩ | ⟨p, inside, rfl⟩))
  · obtain ⟨declared, needs⟩ := Declarations.of_mem_visibleVariables_static visible
    exact ⟨.variable v, ⟨.inl declared, needs⟩, rfl⟩
  · obtain ⟨declared, needs⟩ := Declarations.of_mem_visibleVariables_static visible
    exact ⟨.variable v, ⟨.inr declared, needs⟩, rfl⟩
  · obtain ⟨declared, needs⟩ := Declarations.mem_methodsIn_static.mp inside
    exact ⟨.method m, ⟨.inl declared, needs⟩, rfl⟩
  · obtain ⟨declared, needs⟩ := Declarations.mem_propertiesIn_static.mp inside
    exact ⟨.property p, ⟨.inl declared, needs⟩, rfl⟩
  · obtain ⟨declared, needs⟩ := Declarations.mem_methodsIn_static.mp inside
    exact ⟨.method m, ⟨.inr declared, needs⟩, rfl⟩
  · obtain ⟨declared, needs⟩ := Declarations.mem_propertiesIn_static.mp inside
    exact ⟨.property p, ⟨.inr declared, needs⟩, rfl⟩

theorem showsStatics_of_mem_visibleStage (isStatic : s.context.declContext = .staticBody) {target : Target}
    {item : Item} (listed : item ∈ (s.visibleStage target).items) : s.ShowsStatics item := by
  have mode : s.inheritedMode = .typeStatics := by rw [inheritedMode, if_pos isStatic]
  unfold visibleStage at listed
  split at listed
  · simp [Outcome.items] at listed
  · rw [Outcome.items_ofItems, mode] at listed
    simp only [List.mem_append] at listed
    rcases listed with (((inherited | imported) | static) | declared) | namespaceName
    · refine showsStatics_of_mem_merged (fun item member => ?_) inherited
      obtain ⟨base, isBase, reached⟩ := List.mem_flatMap.mp member
      exact exists_of_mem_reachableItems (List.mem_append_left _ isBase) reached
    · obtain ⟨t, inside, rfl⟩ := List.mem_map.mp imported
      have offered : s.OffersStatic (.type t) := ⟨.inl inside, trivial⟩
      exact showsStatics_item offered
    · refine showsStatics_of_mem_merged (fun item member => ?_) static
      obtain ⟨t, isImport, reached⟩ := List.mem_flatMap.mp member
      exact exists_of_mem_reachableItems (List.mem_append_right _ isImport) reached
    · exact showsStatics_of_mem_merged (fun item => exists_of_mem_declaredItems isStatic) declared
    · obtain ⟨name, inside, rfl⟩ := List.mem_map.mp namespaceName
      have offered : s.OffersStatic (.namespaceName name) := ⟨inside, trivial⟩
      exact showsStatics_item offered

/-- What the name at the head of a chain means can be used where there is no instance. -/
theorem exists_of_entity? (isStatic : s.context.declContext = .staticBody) {head : Segment} {entity : Entity}
    (means : s.entity? head = some entity) :
    ∃ part, part.entity? s = some entity ∧ s.OffersStatic part ∧ part.item.displayText = head.name := by
  unfold entity? at means
  simp only [isStatic] at means
  split at means
  · simp only [Option.map_eq_some_iff, Option.or_eq_some_iff] at means
    obtain ⟨m, found | ⟨-, found⟩, rfl⟩ := means
    · obtain ⟨⟨declared, needs⟩, named⟩ := Declarations.of_findMethod?_static found
      exact ⟨.method m, rfl, ⟨.inl declared, needs⟩, named⟩
    · obtain ⟨⟨declared, needs⟩, named⟩ := Declarations.of_findMethod?_static found
      exact ⟨.method m, rfl, ⟨.inr declared, needs⟩, named⟩
  · simp only [Option.map_eq_some_iff, Option.or_eq_some_iff] at means
    rcases means with (((⟨v, found, rfl⟩ | ⟨-, p, found, rfl⟩) | ⟨-, v, found, rfl⟩) | ⟨-, p, found, rfl⟩) |
      ⟨-, w, found, rfl⟩
    · obtain ⟨⟨declared, needs⟩, named⟩ := Declarations.of_findVariable?_static found
      exact ⟨.variable v, rfl, ⟨.inl declared, needs⟩, named⟩
    · obtain ⟨⟨declared, needs⟩, named⟩ := Declarations.of_findProperty?_static found
      exact ⟨.property p, rfl, ⟨.inl declared, needs⟩, named⟩
    · obtain ⟨⟨declared, needs⟩, named⟩ := Declarations.of_findVariable?_static found
      exact ⟨.variable v, rfl, ⟨.inr declared, needs⟩, named⟩
    · obtain ⟨⟨declared, needs⟩, named⟩ := Declarations.of_findProperty?_static found
      exact ⟨.property p, rfl, ⟨.inr declared, needs⟩, named⟩
    · obtain ⟨f, hit, rfl⟩ := Option.map_eq_some_iff.mp found
      obtain ⟨base, isBase, here⟩ := List.exists_of_findSome?_eq_some hit
      rw [inheritedMode, if_pos isStatic] at here
      obtain ⟨depth, above, declared, answers⟩ := mem_of_findMember? here
      simp only [answersTo, BindingMode.allows, Bool.and_eq_true, beq_iff_eq] at answers
      exact ⟨.member f, rfl, ⟨⟨base, List.mem_append_left _ isBase, mem_ancestry_of_mem_numbered above, declared⟩,
        answers.1.2⟩, answers.1.1.1⟩

/-- The chain, with an alias at its head replaced, is the name of a namespace, as it is or behind a namespace in
scope. -/
def NamesNamespace (s : Scope) (chain : String) : Prop :=
  isPlainDotted (s.context.expandAlias chain) = true ∧
    ∃ q ∈ s.context.qualifiers, s.catalog.isNamespace (qualify q (s.context.expandAlias chain)) = true

theorem isApplicable_namespaceStage_iff {target : Target} (dotted : target.hasDot = true) :
    (s.namespaceStage target).isApplicable = true ↔ s.NamesNamespace target.chain := by
  have known : ((s.context.qualifiers.map (qualify · (s.context.expandAlias target.chain))).find?
      s.catalog.isNamespace).isSome = true ↔
      ∃ q ∈ s.context.qualifiers, s.catalog.isNamespace (qualify q (s.context.expandAlias target.chain)) = true := by
    simp [List.find?_isSome]
  rw [NamesNamespace, ← known]
  by_cases plain : isPlainDotted (s.context.expandAlias target.chain) = true
  · cases found : (s.context.qualifiers.map (qualify · (s.context.expandAlias target.chain))).find?
        s.catalog.isNamespace with
    | none => simp [namespaceStage, dotted, plain, found, Outcome.isApplicable]
    | some name => simp [namespaceStage, dotted, plain, found]
  · simp [namespaceStage, dotted, plain, Outcome.isApplicable]

/-- The words for the instance at hand have an empty list, which only a namespace of their name precedes. -/
theorem codeStages_receiver_static (isStatic : s.context.declContext = .staticBody) {target : Target} {head : Segment}
    {r : Receiver} (dotted : target.hasDot = true) (chain : segmentsOf target.chain.toList = [head])
    (receiver : receiver? head = some r) :
    (¬ s.NamesNamespace target.chain → s.codeStages target = .empty) ∧
      (s.NamesNamespace target.chain → s.codeStages target = s.namespaceStage target) := by
  have empty : s.receiverStage target = .empty := by
    simp [receiverStage, dotted, chain, receiver, receiverItems, isStatic]
  have visible : s.visibleStage target = .notApplicable := by simp [visibleStage, Target.isBlank, dotted]
  have stages : s.codeStages target = (s.namespaceStage target).orElse fun _ => .empty := by
    rw [codeStages, visible, empty]
    rfl
  rw [← isApplicable_namespaceStage_iff dotted, stages]
  exact ⟨fun none => if_neg none, fun some => if_pos some⟩

/-- A name that is no namespace has none inside it. -/
theorem childNamespaces_eq_nil {c : Catalog} {name : String} (nonempty : name ≠ "")
    (none : c.isNamespace name = false) : c.childNamespaces name = [] := by
  refine List.eq_nil_iff_forall_not_mem.mpr fun part member => ?_
  have listed := (mem_childNamespaces.mp member).2
  have outer : name ∈ c.namespaces := mem_namespaces_of_isWithin nonempty (.inr ⟨part, rfl⟩) listed
  simp [isNamespace, outer] at none

/-- A directive that is being written has no namespaces behind a word that is none. -/
theorem usingStage_receiver {before : List Char} {r : Receiver} (dotted : (Target.of before).hasDot = true)
    (chain : (Target.of before).chain = r.word)
    (unwritten : usingPartial? before = none ∨ s.catalog.isNamespace r.word = false) :
    s.usingStage before = .notApplicable ∨ s.usingStage before = .empty := by
  unfold usingStage
  cases writing : usingPartial? before with
  | none => exact .inl rfl
  | some typed =>
    have visible : ∀ c ∈ (Target.of before).chain.toList, Text.isBlank c = false := chain ▸ r.visible
    have parts := breakLast_of_usingPartial? writing dotted visible
    have noNamespace : s.catalog.isNamespace r.word = false := by simpa [writing] using unwritten
    have children := childNamespaces_eq_nil (by cases r <;> decide) noNamespace
    simp only [parts, String.ofList_toList, chain, children]
    exact .inr rfl

/-- The word alone has the empty list for its answer in a static context, unless it names a namespace. -/
theorem respond_receiver_static (read : ∃ source caret, s.context = Context.of source caret)
    (isStatic : s.context.declContext = .staticBody) {before : List Char} {r : Receiver}
    (dotted : (Target.of before).hasDot = true) (chain : (Target.of before).chain = r.word)
    (unnamed : ¬ s.NamesNamespace r.word)
    (unwritten : usingPartial? before = none ∨ s.catalog.isNamespace r.word = false) :
    s.respond before = { outcome := .empty, lookAhead := (Target.of before).lookAhead } := by
  obtain ⟨source, caret, context⟩ := read
  have reached : (s.context.beforeFirstType || s.context.region.isNone) = false := by
    rw [context] at isStatic ⊢
    exact Context.inType_of_static isStatic
  have word : s.codeStages (Target.of before) = .empty := by
    have segments : segmentsOf (Target.of before).chain.toList = [{ name := r.word }] := by
      rw [chain]
      cases r <;> decide
    exact (codeStages_receiver_static isStatic dotted segments (receiver?_word r)).1 (chain ▸ unnamed)
  have outcome : ((s.usingStage before).orElse fun _ =>
      if s.context.beforeFirstType || s.context.region.isNone then .notApplicable
      else s.codeStages (Target.of before)) = .empty := by
    rcases usingStage_receiver dotted chain unwritten with none | empty
    · rw [none, reached, word]
      rfl
    · rw [empty]
      rfl
  unfold respond
  dsimp only
  rw [outcome]
  rfl

/-- In a static context what an item of the list for a bare name shows can be used without an instance, each of its
overloads too, and so can what a bare name means at the head of a chain. The words `this` and `base` alone have the
empty list, unless the word, with an alias of that name replaced, names a namespace, or a directive is being written
and the word itself names one. In the first case the stages for code answer with what the namespace holds. -/
theorem static_context (read : ∃ source caret, s.context = Context.of source caret)
    (isStatic : s.context.declContext = .staticBody) :
    (∀ target, ∀ item ∈ (s.visibleStage target).items, s.ShowsStatics item) ∧
    (∀ head walk, s.localHead? head = some walk → ∃ entity part, s.entity? head = some entity ∧
      part.entity? s = some entity ∧ s.OffersStatic part ∧ part.item.displayText = head.name) ∧
    (∀ (target : Target) head r, target.hasDot = true → segmentsOf target.chain.toList = [head] →
      receiver? head = some r →
        (¬ s.NamesNamespace target.chain → s.codeStages target = .empty) ∧
        (s.NamesNamespace target.chain → s.codeStages target = s.namespaceStage target)) ∧
    ∀ before (r : Receiver), (Target.of before).hasDot = true → (Target.of before).chain = r.word →
      ¬ s.NamesNamespace r.word → (usingPartial? before = none ∨ s.catalog.isNamespace r.word = false) →
        s.respond before = { outcome := .empty, lookAhead := (Target.of before).lookAhead } := by
  refine ⟨fun target item => showsStatics_of_mem_visibleStage isStatic, fun head walk found => ?_,
    fun target head r => codeStages_receiver_static isStatic, fun before r => respond_receiver_static read isStatic⟩
  obtain ⟨entity, means, -⟩ := Option.map_eq_some_iff.mp found
  obtain ⟨part, same, offered, named⟩ := exists_of_entity? isStatic means
  exact ⟨entity, part, means, same, offered, named⟩

/-- A type in a namespace for which an alias named `this` stands. -/
def marina : Catalog :=
  let cleat : TypeInfo := { namespaceName := some "Marina", name := "Cleat", kind := .classType }
  ⟨{ workspace := ["Loft"] }, [.memory [⟨"Loft", [cleat]⟩]]⟩

/-- In a static method the word alone lists what is in the namespace that its alias stands for. -/
theorem static_context_alias :
    let code := "using this = Marina; class Mast \x7b static void M() \x7b this.".toList
    (Context.of code code.length).declContext = .staticBody ∧
      (lookupCode none marina false code code.length).map (·.outcome.items.map (·.displayText)) = .ok ["Cleat"] := by
  decide +kernel

/-- The caret in a static method beside an instance field. -/
def tallyScope : Scope :=
  let code := "class Tally \x7b static int total; int rest; static void Add(int n) \x7b ".toList
  { catalog := ⟨{}, []⟩, context := Context.of code code.length, nonPublic := false }

theorem static_context_tally :
    tallyScope.context.declContext = .staticBody ∧
      (∀ item ∈ (tallyScope.visibleStage ⟨"", "", ""⟩).items, tallyScope.ShowsStatics item) ∧
      (tallyScope.localHead? { name := "total" }).isSome = true ∧
      tallyScope.respond "this.re".toList = { outcome := .empty, lookAhead := "re" } := by
  have isStatic : tallyScope.context.declContext = .staticBody := by decide +kernel
  obtain ⟨shows, -, -, receiver⟩ := static_context ⟨_, _, rfl⟩ isStatic
  have target : Target.of "this.re".toList = ⟨"this.re", "this", "re"⟩ := by decide +kernel
  have noNamespaces : tallyScope.catalog.namespaces = [] := by decide +kernel
  have unnamed : ¬ tallyScope.NamesNamespace "this" := by
    rintro ⟨-, q, -, known⟩
    simp [Catalog.isNamespace, noNamespaces] at known
  have answer := receiver "this.re".toList .this (by rw [target]; decide) (by rw [target]; rfl) unnamed
    (.inl (by decide +kernel))
  rw [target] at answer
  exact ⟨isStatic, shows _, by decide +kernel, answer⟩

end Scope

end Typeahead.Lookup
