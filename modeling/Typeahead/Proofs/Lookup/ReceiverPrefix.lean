import Typeahead.Lookup.Stage
import Typeahead.Proofs.Catalog.Inheritance
import Typeahead.Proofs.Catalog.Listing
import Typeahead.Proofs.Source.ChainPrefix
import Typeahead.Proofs.Source.Names
import Typeahead.Proofs.Text.Blanks

namespace Typeahead.Catalog

open Text

/-- The names that the separators part a full name into. -/
def nameParts (fullName : List Char) : List (List Char) := fullName.splitOnP fun c => c == '.' || c == '+'

theorem nameParts_append_cons {c : Char} (parts : c = '.' ∨ c = '+') (before later : List Char) :
    nameParts (before ++ c :: later) = nameParts before ++ nameParts later :=
  List.splitOnP_append_cons before later (by simpa using parts)

/-- Another spelling of the separators changes none of the names between them. -/
theorem nameParts_of_mem_nestings {later before nested : List Char} (member : nested ∈ nestings later before) :
    nameParts nested = nameParts (before.reverse ++ later) := by
  induction before generalizing later with
  | nil => simp [nestings] at member
  | cons c before ih =>
    have shape : (c :: before).reverse ++ later = before.reverse ++ c :: later := by simp
    rw [shape]
    unfold nestings at member
    split at member
    · next dot =>
      have respelled : nameParts (before.reverse ++ '+' :: later) = nameParts (before.reverse ++ c :: later) := by
        rw [nameParts_append_cons (.inr rfl), nameParts_append_cons (.inl dot)]
      rcases List.mem_cons.mp member with rfl | further
      · exact respelled
      · rw [ih further, respelled]
    · exact ih member

theorem nameParts_of_mem_spellings {name spelling : String} (member : spelling ∈ spellings name) :
    nameParts spelling.toList = nameParts name.toList := by
  rcases List.mem_cons.mp member with rfl | nested
  · rfl
  · obtain ⟨cs, inside, rfl⟩ := List.mem_map.mp nested
    rw [String.toList_ofList, nameParts_of_mem_nestings inside]
    simp

/-- A qualifier adds names in front and keeps the others. -/
theorem nameParts_qualify (q name : String) : nameParts name.toList ⊆ nameParts (qualify q name).toList := by
  unfold qualify
  split
  · exact List.Subset.refl _
  · rw [String.toList_append, String.toList_append, List.append_assoc]
    have dotted : q.toList ++ (".".toList ++ name.toList) = q.toList ++ '.' :: name.toList := rfl
    rw [dotted, nameParts_append_cons (.inl rfl)]
    exact List.subset_append_right _ _

/-- A type that one of the loader's assemblies declares. -/
def IsLoaded (c : Catalog) (info : TypeInfo) : Prop := ∃ a ∈ c.loader.assemblies, info ∈ a.types

theorem isLoaded_of_findType? {c : Catalog} {name : String} {info : TypeInfo}
    (found : c.findType? name = some info) : c.IsLoaded info := by
  obtain ⟨a, listed, here⟩ := List.exists_of_findSome?_eq_some found
  exact ⟨a, mem_assemblies_of_mem_assembliesFor listed, (List.mem_filter.mp (List.mem_of_getLast? here)).1⟩

theorem isLoaded_of_resolve? {c : Catalog} {written : String} {qualifiers : List String} {t : ResolvedType}
    (found : c.resolve? written qualifiers = some t) : c.IsLoaded t.info := by
  unfold resolve? at found
  dsimp only at found
  split at found
  · simp at found
  · split at found
    · obtain ⟨info, isArray, rfl⟩ := Option.map_eq_some_iff.mp found
      exact isLoaded_of_findType? isArray
    · obtain ⟨info, named, rfl⟩ := Option.map_eq_some_iff.mp found
      obtain ⟨name, -, here⟩ := List.exists_of_findSome?_eq_some named
      exact isLoaded_of_findType? here

theorem isLoaded_of_mem_newParents {c : Catalog} {met : List String} {written : List TypeName} {t : ResolvedType}
    (member : t ∈ c.newParents met written) : c.IsLoaded t.info := by
  obtain ⟨reference, -, info, found, rfl⟩ := exists_of_mem_newParents member
  exact isLoaded_of_findType? found

theorem isLoaded_of_mem_ancestry {c : Catalog} {t ancestor : ResolvedType} (isLoaded : c.IsLoaded t.info)
    (member : ancestor ∈ c.ancestry t) : c.IsLoaded ancestor.info := by
  unfold ancestry at member
  have queued : ∀ u ∈ [t], c.IsLoaded u.info := by simpa using isLoaded
  revert queued member
  generalize [t.fullName] = met
  generalize [t] = queue
  fun_induction ancestryFrom c met queue with
  | case1 => intro member; simp at member
  | case2 met u queue found ih =>
    intro member queued
    obtain ⟨first, others⟩ := List.forall_mem_cons.mp queued
    rcases List.mem_cons.mp member with rfl | later
    · exact first
    · refine ih later fun v inside => ?_
      rcases List.mem_append.mp inside with waiting | new
      · exact others v waiting
      · exact isLoaded_of_mem_newParents new

end Typeahead.Catalog

namespace Typeahead.Text

/-- A text that is a word, or begins with the word and a dot. -/
def Heads (word text : List Char) : Prop := text = word ∨ ∃ rest, text = word ++ '.' :: rest

theorem Heads.append {word text : List Char} (heads : Heads word text) (more : List Char) :
    Heads word (text ++ '.' :: more) := by
  rcases heads with rfl | ⟨rest, rfl⟩
  · exact .inr ⟨more, rfl⟩
  · exact .inr ⟨rest ++ '.' :: more, by simp⟩

/-- What is cut off behind the last character that stays is cut off behind it in a longer text too. -/
theorem reverse_dropWhile_reverse_append {p : Char → Bool} {front rest : List Char}
    (stays : ∀ c ∈ front.getLast?, p c = false) :
    ((front ++ rest).reverse.dropWhile p).reverse = front ++ (rest.reverse.dropWhile p).reverse := by
  have whole : front.reverse.dropWhile p = front.reverse := by
    cases reversed : front.reverse with
    | nil => rfl
    | cons c cs =>
      have last : c ∈ front.getLast? := by simp [← List.head?_reverse, reversed]
      rw [List.dropWhile_cons_of_neg (by simp [stays c last])]
  rw [List.reverse_append, List.dropWhile_append]
  split
  · next empty =>
    have nothing : rest.reverse.dropWhile p = [] := by simpa using empty
    rw [whole, nothing]
    simp
  · simp

/-- A cut at the end that keeps the characters of the word and the dot keeps the word in front. -/
theorem Heads.dropEnd {p : Char → Bool} {word text : List Char} (heads : Heads word text)
    (keeps : ∀ c ∈ word, p c = false) (dot : p '.' = false) : Heads word (text.reverse.dropWhile p).reverse := by
  rcases heads with rfl | ⟨rest, rfl⟩
  · have cut : ((text ++ []).reverse.dropWhile p).reverse = text ++ ([].reverse.dropWhile p).reverse :=
      reverse_dropWhile_reverse_append fun c last => keeps c (List.mem_of_mem_getLast? last)
    rw [List.append_nil] at cut
    exact .inl (by rw [cut]; simp)
  · have split : word ++ '.' :: rest = (word ++ ['.']) ++ rest := by simp
    rw [split, reverse_dropWhile_reverse_append (by simpa using dot)]
    exact .inr ⟨(rest.reverse.dropWhile p).reverse, by simp⟩

theorem Heads.takeWhile {p : Char → Bool} {word text : List Char} (heads : Heads word text)
    (keeps : ∀ c ∈ word, p c = true) (dot : p '.' = true) : Heads word (text.takeWhile p) := by
  rcases heads with rfl | ⟨rest, rfl⟩
  · exact .inl (List.takeWhile_eq_self_iff.mpr keeps)
  · rw [List.takeWhile_append_of_pos keeps, List.takeWhile_cons_of_pos dot]
    exact .inr ⟨rest.takeWhile p, rfl⟩

/-- What comes to a word or a word and a dot at its beginning stops at the dot. -/
theorem Heads.takeWhile_eq {p : Char → Bool} {word text : List Char} (heads : Heads word text)
    (keeps : ∀ c ∈ word, p c = true) (dot : p '.' = false) : text.takeWhile p = word := by
  rcases heads with rfl | ⟨rest, rfl⟩
  · exact List.takeWhile_eq_self_iff.mpr keeps
  · rw [List.takeWhile_append_of_pos keeps, List.takeWhile_cons_of_neg (by simp [dot]), List.append_nil]

theorem Heads.trim {word text : List Char} (heads : Heads word text) (visible : ∀ c ∈ word, isBlank c = false) :
    Heads word (trim text) := by
  have start : trimStart text = text := by
    refine trimStart_eq fun c first => ?_
    rcases heads with rfl | ⟨rest, rfl⟩
    · exact visible c (List.mem_of_mem_head? first)
    · cases word with
      | nil =>
        obtain rfl := Option.some.inj first
        rfl
      | cons d word =>
        obtain rfl := Option.some.inj first
        exact visible d List.mem_cons_self
  rw [Text.trim, start, trimEnd]
  exact heads.dropEnd visible rfl

end Typeahead.Text

namespace Typeahead.Lookup.Scope

open Text Catalog Source

namespace Receiver

variable {r : Receiver} {written : String}

def word : Receiver → String
  | .this => "this"
  | .base => "base"

theorem word_mem_reservedWords (r : Receiver) : r.word ∈ reservedWords := by
  cases r <;> decide

/-- A test of all letters at once, to be evaluated for each word. -/
theorem forall_letter {p : Char → Bool} {answer : Bool} (all : (r.word.toList.all fun c => p c == answer) = true) :
    ∀ c ∈ r.word.toList, p c = answer :=
  fun c letter => beq_iff_eq.mp (List.all_eq_true.mp all c letter)

theorem visible (r : Receiver) : ∀ c ∈ r.word.toList, isBlank c = false :=
  forall_letter (by cases r <;> decide)

theorem not_separator (r : Receiver) : ∀ c ∈ r.word.toList, (c == '.' || c == '+') = false :=
  forall_letter (by cases r <;> decide)

theorem mem_nameParts {name : List Char} (heads : Heads r.word.toList name) : r.word.toList ∈ nameParts name := by
  rcases heads with rfl | ⟨rest, rfl⟩
  · rw [nameParts, List.splitOnP_eq_singleton r.not_separator]
    exact List.mem_cons_self
  · rw [nameParts, List.splitOnP_append_cons_of_forall_mem r.not_separator '.' rfl]
    exact List.mem_cons_self

/-- No keyword for a type begins with the word. -/
theorem keywordAlias?_eq_none {name : String} (heads : Heads r.word.toList name.toList) :
    TypeName.keywordAlias? name = none := by
  have begins : r.word.toList <+: name.toList := by
    rcases heads with whole | ⟨rest, split⟩
    · exact whole ▸ List.prefix_refl _
    · exact split ▸ List.prefix_append _ _
  have none : ∀ pair ∈ TypeName.keywordAliases, ¬ r.word.toList <+: pair.1.toList := by
    cases r <;> decide
  refine List.lookup_eq_none_iff.mpr fun pair member => ?_
  simp only [bne_iff_ne, ne_eq]
  rintro rfl
  exact none pair member begins

theorem heads_canonicalBase (heads : Heads r.word.toList written.toList) :
    Heads r.word.toList (TypeName.canonicalBase ⟨written⟩).toList := by
  have cut : Heads r.word.toList ((written.toList.takeWhile (· ≠ '<')).takeWhile (· ≠ '[')) :=
    (heads.takeWhile (forall_letter (by cases r <;> decide)) rfl).takeWhile
      (forall_letter (by cases r <;> decide)) rfl
  have unmarked := ((cut.trim r.visible).dropEnd (p := (· == '?'))
    (forall_letter (by cases r <;> decide)) rfl).trim r.visible
  unfold TypeName.canonicalBase
  dsimp only
  rw [keywordAlias?_eq_none (by rwa [String.toList_ofList]), Option.getD_none, String.toList_ofList]
  exact unmarked

end Receiver

/-- Nothing bears the word `this` or `base` for its name: no namespace and no type, no member of a type, no
alias and not the type around the caret. -/
structure LeavesWords (s : Scope) : Prop where
  types : ∀ name ∈ s.catalog.typeNames, ∀ r : Receiver, r.word.toList ∉ nameParts name.toList
  members : ∀ info, s.catalog.IsLoaded info → ∀ m ∈ info.members, ∀ r : Receiver, m.name ≠ r.word
  aliases : ∀ short target, Using.aliasOf short target ∈ s.context.usings → ∀ r : Receiver, short ≠ r.word
  edited : ∀ r : Receiver, s.context.typeName? ≠ some r.word

variable {s : Scope} {r : Receiver} {written : String}

theorem expandAlias_eq_self (leaves : s.LeavesWords) (heads : Heads r.word.toList written.toList) :
    s.context.expandAlias written = written := by
  have head : written.toList.takeWhile isIdentifierChar = r.word.toList :=
    heads.takeWhile_eq (Receiver.forall_letter (by cases r <;> decide)) rfl
  unfold Context.expandAlias
  dsimp only
  rw [head]
  split
  · next target found =>
    obtain ⟨directive, member, here⟩ := List.exists_of_findSome?_eq_some found
    cases directive with
    | wholeNamespace | staticsOf => simp at here
    | aliasOf short expansion =>
      have other : short.toList ≠ r.word.toList := fun same =>
        leaves.aliases short expansion member r (String.toList_inj.mp same)
      simp [other] at here
  · rfl

/-- A name that begins with the word is no type's. -/
theorem findType?_eq_none (leaves : s.LeavesWords) {base q name : String} (heads : Heads r.word.toList base.toList)
    (tried : name ∈ spellings (qualify q base)) : s.catalog.findType? name = none := by
  refine Option.eq_none_iff_forall_ne_some.mpr fun info found => ?_
  have part : r.word.toList ∈ nameParts name.toList := by
    rw [nameParts_of_mem_spellings tried]
    exact nameParts_qualify q base (Receiver.mem_nameParts heads)
  exact leaves.types name (mem_typeNames_of_findType? found) r part

theorem catalog_resolve?_eq_none (leaves : s.LeavesWords) (heads : Heads r.word.toList written.toList)
    (bare : ']' ∉ written.toList) (qualifiers : List String) : s.catalog.resolve? written qualifiers = none := by
  have trimmed : Heads r.word.toList (String.ofList (trim written.toList)).toList := by
    rw [String.toList_ofList]
    exact heads.trim r.visible
  have noArray : TypeName.arrayElement? ⟨String.ofList (trim written.toList)⟩ = none := by
    have last : (trim written.toList).getLast? ≠ some ']' := fun last =>
      bare (trim_subset _ (List.mem_of_mem_getLast? last))
    simp [TypeName.arrayElement?, TypeName.isArray, last]
  unfold Catalog.resolve?
  dsimp only
  split
  · rfl
  · rw [noArray]
    dsimp only
    rw [Option.map_eq_none_iff, List.findSome?_eq_none_iff]
    intro name tried
    obtain ⟨q, -, spelled⟩ := List.mem_flatMap.mp tried
    exact findType?_eq_none leaves (Receiver.heads_canonicalBase trimmed) spelled

/-- A written name that begins with the word means no type. -/
theorem resolve?_eq_none (leaves : s.LeavesWords) (heads : Heads r.word.toList written.toList)
    (bare : ']' ∉ written.toList) : s.resolve? written = none := by
  have trimmed : Heads r.word.toList (String.ofList (trim written.toList)).toList := by
    rw [String.toList_ofList]
    exact heads.trim r.visible
  unfold resolve?
  rw [expandAlias_eq_self leaves trimmed]
  refine catalog_resolve?_eq_none leaves trimmed (fun member => bare ?_) _
  rw [String.toList_ofList] at member
  exact trim_subset _ member

/-- No type begins a chain whose first names are the word and what stands behind it. -/
theorem staticHeadFrom_eq_none (leaves : s.LeavesWords) {name : String} (heads : Heads r.word.toList name.toList)
    (bare : ']' ∉ name.toList) {used : Nat} (positive : used ≠ 0) {segments : List Segment}
    (names : ∀ seg ∈ segments, ']' ∉ seg.name.toList) : s.staticHeadFrom name used segments = none := by
  induction segments generalizing name used with
  | nil => rfl
  | cons seg rest ih =>
    obtain ⟨own, others⟩ := List.forall_mem_cons.mp names
    have spelled : (name ++ "." ++ seg.name).toList = name.toList ++ '.' :: seg.name.toList := by
      simp [String.toList_append]
    have further : Heads r.word.toList (name ++ "." ++ seg.name).toList := by
      rw [spelled]
      exact heads.append _
    have stillBare : ']' ∉ (name ++ "." ++ seg.name).toList := by
      rw [spelled]
      simp [bare, own]
    unfold staticHeadFrom
    rw [if_neg positive]
    split
    · rfl
    · dsimp only
      rw [resolve?_eq_none leaves further stillBare]
      dsimp only
      split
      · rfl
      · exact ih further stillBare (Nat.succ_ne_zero used) others

theorem staticHead?_eq_none (leaves : s.LeavesWords) {head : Segment} (named : head.name = r.word)
    {rest : List Segment} (names : ∀ seg ∈ rest, ']' ∉ seg.name.toList) : s.staticHead? (head :: rest) = none := by
  have heads : Heads r.word.toList head.name.toList := .inl (by rw [named])
  have bare : ']' ∉ head.name.toList := by
    rw [named]
    cases r <;> decide
  unfold staticHead? staticHeadFrom
  rw [if_pos rfl]
  split
  · rfl
  · dsimp only
    rw [resolve?_eq_none leaves heads bare]
    dsimp only
    split
    · rfl
    · exact staticHeadFrom_eq_none leaves heads bare (Nat.succ_ne_zero 0) names

/-- The word is no member of a type that the catalog has loaded. -/
theorem findMember?_eq_none (leaves : s.LeavesWords) {t : ResolvedType} (isLoaded : s.catalog.IsLoaded t.info)
    {mode : BindingMode} {nonPublic : Bool} : s.catalog.findMember? t r.word mode nonPublic = none := by
  refine Option.eq_none_iff_forall_ne_some.mpr fun found here => ?_
  obtain ⟨depth, above, declared, answers⟩ := mem_of_findMember? here
  have named : found.member.name = r.word := by
    simp only [answersTo, Bool.and_eq_true, beq_iff_eq] at answers
    exact answers.1.1.1
  exact leaves.members _ (isLoaded_of_mem_ancestry isLoaded (mem_ancestry_of_mem_numbered above)) _ declared r named

/-- The word is no declared entity. -/
theorem entity?_eq_none (leaves : s.LeavesWords) (own : s.context.declarations.Unreserved)
    (inherited : s.context.inherited.Unreserved) {head : Segment} (named : head.name = r.word) :
    s.entity? head = none := by
  have method {ds : Declarations} (unreserved : ds.Unreserved) {context : DeclContext} :
      ds.findMethod? r.word context = none := by
    refine List.find?_eq_none.mpr fun m member => ?_
    have other := unreserved.methods m (List.mem_filter.mp member).1
    simpa using fun same : m.name = r.word => other (same ▸ r.word_mem_reservedWords)
  have property {ds : Declarations} (unreserved : ds.Unreserved) {context : DeclContext} :
      ds.findProperty? r.word context = none := by
    refine List.find?_eq_none.mpr fun p member => ?_
    have other := unreserved.properties p (List.mem_filter.mp member).1
    simpa using fun same : p.name = r.word => other (same ▸ r.word_mem_reservedWords)
  have variable_ {ds : Declarations} (unreserved : ds.Unreserved) {context : DeclContext} :
      ds.findVariable? r.word s.context.caret context = none := by
    refine List.find?_eq_none.mpr fun v member => ?_
    have declared : v ∈ ds.vars := by
      rcases List.mem_append.mp (List.mem_filter.mp member).1 with isLocal | field
      · exact (List.mem_filter.mp isLocal).1
      · exact (List.mem_filter.mp field).1
    have other := unreserved.vars v declared
    simpa using fun same : v.name = r.word => other (same ▸ r.word_mem_reservedWords)
  have member : s.inheritedMember? r.word = none := by
    rw [inheritedMember?, Option.map_eq_none_iff, List.findSome?_eq_none_iff]
    intro base isBase
    obtain ⟨written, -, found⟩ := List.mem_filterMap.mp isBase
    exact findMember?_eq_none leaves (isLoaded_of_resolve? found)
  unfold entity?
  simp only [named, method own, method inherited, property own, property inherited, variable_ own,
    variable_ inherited, member, Option.map_none, Option.or_none, ite_self]

theorem localChain_word (leaves : s.LeavesWords) (own : s.context.declarations.Unreserved)
    (inherited : s.context.inherited.Unreserved) {head : Segment} (named : head.name = r.word)
    (rest : List Segment) : s.localChain (head :: rest) = .notApplicable := by
  have none : s.localHead? head = none := by
    rw [localHead?, localHeadWith, entity?_eq_none leaves own inherited named, Option.map_none]
  simp [localChain, none]

theorem staticChain_word (leaves : s.LeavesWords) {head : Segment} (named : head.name = r.word)
    {rest : List Segment} (names : ∀ seg ∈ rest, ']' ∉ seg.name.toList) :
    s.staticChain (head :: rest) = .notApplicable := by
  have notOwn : (s.context.typeName? == some head.name) = false := by
    rw [named]
    simpa using leaves.edited r
  have noImport : s.staticImports.find? (fun t =>
      (s.catalog.findMember? t head.name .typeStatics false).isSome) = none := by
    refine List.find?_eq_none.mpr fun t isImport => ?_
    obtain ⟨written, -, found⟩ := List.mem_filterMap.mp isImport
    rw [named, findMember?_eq_none leaves (isLoaded_of_resolve? found)]
    simp
  simp only [staticChain, staticHead?_eq_none leaves named names, notOwn, Bool.and_false, Bool.false_eq_true,
    if_false, noImport]

theorem receiver?_word (r : Receiver) : receiver? { name := r.word } = some r := by
  cases r <;> decide

theorem receiver?_of_other {head : Segment} (other : ∀ word : Receiver, head.name ≠ word.word) :
    receiver? head = none := by
  have this : head.name ≠ "this" := other .this
  have base : head.name ≠ "base" := other .base
  simp [receiver?, this, base]

theorem orElse_notApplicable (outcome : Outcome) : outcome.orElse (fun _ => .notApplicable) = outcome := by
  cases outcome <;> rfl

/-- The stages behind a dot where no namespace stands before it. -/
theorem codeStages_of_dotted {target : Target} (dotted : target.hasDot = true)
    (noNamespace : s.namespaceStage target = .notApplicable) :
    s.codeStages target = (s.receiverStage target).orElse fun _ =>
      (s.localChain (segmentsOf target.chain.toList)).orElse fun _ =>
        s.staticChain (segmentsOf target.chain.toList) := by
  have noScope : s.visibleStage target = .notApplicable := by simp [visibleStage, Target.isBlank, dotted]
  simp only [codeStages, noNamespace, noScope, localStage, staticStage, dotted, if_true]
  rfl

/-- Behind another name than the words the stages are those of the chain. -/
theorem codeStages_of_other {target : Target} {first : Segment} {more : List Segment}
    (dotted : target.hasDot = true) (noNamespace : s.namespaceStage target = .notApplicable)
    (reads : segmentsOf target.chain.toList = first :: more) (other : ∀ word : Receiver, first.name ≠ word.word) :
    s.codeStages target = (s.localChain (first :: more)).orElse fun _ => s.staticChain (first :: more) := by
  have none : s.receiverStage target = .notApplicable := by
    simp [receiverStage, dotted, reads, receiver?_of_other other]
  rw [codeStages_of_dotted dotted noNamespace, none, reads]
  rfl

/-- Behind the word the stages are those of the rest of the chain, and no stage reads the word itself. -/
theorem codeStages_of_word (leaves : s.LeavesWords) (own : s.context.declarations.Unreserved)
    (inherited : s.context.inherited.Unreserved) {target : Target} {first : Segment} {more : List Segment}
    (dotted : target.hasDot = true) (noNamespace : s.namespaceStage target = .notApplicable)
    (reads : segmentsOf target.chain.toList = { name := r.word } :: first :: more) :
    s.codeStages target = (s.localChain (first :: more)).orElse fun _ => s.staticChain (first :: more) := by
  have names : ∀ seg ∈ first :: more, ']' ∉ seg.name.toList := fun seg member =>
    not_mem_name_of_mem_segmentsOf (reads ▸ List.mem_cons_of_mem _ member)
  have stage : s.receiverStage target =
      (s.localChain (first :: more)).orElse fun _ => s.staticChain (first :: more) := by
    simp [receiverStage, dotted, reads, receiver?_word]
  have noLocal : s.localChain ({ name := r.word } :: first :: more) = .notApplicable :=
    localChain_word leaves own inherited rfl _
  have noStatic : s.staticChain ({ name := r.word } :: first :: more) = .notApplicable :=
    staticChain_word leaves rfl names
  rw [codeStages_of_dotted dotted noNamespace, stage, reads, noLocal, noStatic]
  exact orElse_notApplicable _

/-- The two chains, with the word and without it. -/
theorem segmentsOf_receiver {plain prefixed : Target} {c : Char} {rest : List Char}
    (chain : plain.chain = String.ofList (c :: rest)) (begins : beginsName c = true)
    (longer : prefixed.chain = r.word ++ "." ++ plain.chain) :
    ∃ first more, segmentsOf plain.chain.toList = first :: more ∧
      segmentsOf prefixed.chain.toList = { name := r.word } :: first :: more := by
  have reads : (r.word.toList ++ ['.']).foldl ChainReader.step {} =
      { segments := [{ name := String.ofList r.word.toList }] } := by
    cases r <;> decide
  obtain ⟨both, some⟩ := segmentsOf_dotted rest reads begins
  obtain ⟨first, more, shape⟩ := List.exists_cons_of_ne_nil some
  have spelled : prefixed.chain.toList = r.word.toList ++ '.' :: c :: rest := by
    rw [longer, chain]
    simp [String.toList_append]
  refine ⟨first, more, by rw [chain, String.toList_ofList, shape], ?_⟩
  rw [spelled, both, shape, String.ofList_toList]

/-- `this.` and `base.` in front of a longer chain make no difference, where nothing is named so and no
namespace stands before the dot: the stages answer what they answer for the chain alone. A chain whose first
name is itself read as one of the words, as `th is`, has no answer behind them. -/
theorem codeStages_receiver (leaves : s.LeavesWords) (read : ∃ source caret, s.context = Context.of source caret)
    (r : Receiver) {plain prefixed : Target} {c : Char} {rest : List Char}
    (chain : plain.chain = String.ofList (c :: rest)) (begins : beginsName c = true)
    (longer : prefixed.chain = r.word ++ "." ++ plain.chain) (plainDotted : plain.hasDot = true)
    (dotted : prefixed.hasDot = true) (noNamespace : s.namespaceStage plain = .notApplicable)
    (noLongerNamespace : s.namespaceStage prefixed = .notApplicable) :
    ∃ first more, segmentsOf plain.chain.toList = first :: more ∧
      ((∀ word : Receiver, first.name ≠ word.word) → s.codeStages prefixed = s.codeStages plain) ∧
      ∀ word : Receiver, first.name = word.word → s.codeStages prefixed = .notApplicable := by
  obtain ⟨source, caret, context⟩ := read
  obtain ⟨own, inherited⟩ := Context.unreserved source caret
  rw [← context] at own inherited
  obtain ⟨first, more, reads, longerReads⟩ := segmentsOf_receiver chain begins longer
  have answer := codeStages_of_word leaves own inherited dotted noLongerNamespace longerReads
  refine ⟨first, more, reads, fun other => ?_, fun word named => ?_⟩
  · rw [answer, codeStages_of_other plainDotted noNamespace reads other]
  · have names : ∀ seg ∈ more, ']' ∉ seg.name.toList := fun seg member =>
      not_mem_name_of_mem_segmentsOf (reads ▸ List.mem_cons_of_mem _ member)
    rw [answer, localChain_word leaves own inherited named, staticChain_word leaves named names]
    rfl

def rope : TypeInfo := { name := "Rope", kind := .classType, members := [{ name := "Length", kind := .field }] }

/-- A class with one field, whose type has one field too. -/
def mastScope (statement : String) : Scope :=
  let code := ("class Mast \x7b Rope r; void M() \x7b " ++ statement).toList
  { catalog := ⟨{ workspace := ["Loft"] }, [.memory [⟨"Loft", [rope]⟩]]⟩
    context := Context.of code code.length, nonPublic := false }

theorem leavesWords_mastScope {statement : String} (noUsings : (mastScope statement).context.usings = [])
    (edited : (mastScope statement).context.typeName? = some "Mast") : (mastScope statement).LeavesWords where
  types := by
    intro name member r
    obtain rfl : name = "Rope" := List.mem_singleton.mp member
    cases r <;> decide
  members := by
    rintro info ⟨a, isLoaded, declared⟩ m member r
    obtain rfl : a = ⟨"Loft", [rope]⟩ := List.mem_singleton.mp isLoaded
    obtain rfl : info = rope := List.mem_singleton.mp declared
    obtain rfl : m = { name := "Length", kind := .field } := List.mem_singleton.mp member
    cases r <;> decide
  aliases := by simp [noUsings]
  edited := by
    intro r
    rw [edited]
    cases r <;> decide

/-- A chain of one head that has a type has an answer. -/
theorem isApplicable_localChain {head : Segment} {t : ResolvedType} (means : s.localHead? head = some (.type t))
    (value : t.isVoid = false) : (s.localChain [head]).isApplicable = true := by
  have ends : s.walk t [] .instanceMembers s.nonPublic = .type t := by simp [walk, follow, Walk.ofType, value]
  simp only [localChain, means, complete, ends]
  exact Outcome.isApplicable_ofItems _

/-- The field and the field by way of the instance list the same. -/
theorem codeStages_receiver_mast :
    let s := mastScope "this.r."
    let plain : Target := ⟨"r.", "r", ""⟩
    let prefixed : Target := ⟨"this.r.", "this.r", ""⟩
    s.LeavesWords ∧ s.namespaceStage plain = .notApplicable ∧ s.namespaceStage prefixed = .notApplicable ∧
      s.codeStages prefixed = s.codeStages plain ∧ (s.codeStages plain).isApplicable = true := by
  intro s plain prefixed
  have leaves : s.LeavesWords := leavesWords_mastScope (by decide +kernel) (by decide +kernel)
  have noNamespace : s.namespaceStage plain = .notApplicable := by decide +kernel
  have noLongerNamespace : s.namespaceStage prefixed = .notApplicable := by decide +kernel
  have chain : plain.chain = String.ofList ['r'] := by decide
  have longer : prefixed.chain = Receiver.this.word ++ "." ++ plain.chain := by decide
  obtain ⟨first, more, reads, same, -⟩ := codeStages_receiver leaves ⟨_, _, rfl⟩ .this chain (by decide) longer
    (by decide) (by decide) noNamespace noLongerNamespace
  have segments : segmentsOf plain.chain.toList = [{ name := "r" }] := by decide
  obtain ⟨rfl, rfl⟩ := List.cons.inj (segments.symm.trans reads)
  have other : ∀ word : Receiver, "r" ≠ word.word := fun word => by cases word <;> decide
  have means : s.localHead? { name := "r" } = some (.type { info := rope }) := by decide +kernel
  refine ⟨leaves, noNamespace, noLongerNamespace, same other, ?_⟩
  rw [codeStages_of_other (by decide) noNamespace reads other]
  simp [Outcome.orElse, isApplicable_localChain means (by decide)]

/-- A no-break space in a name is part of the name for the target and dropped from the chain, so that the
chain begins with another word and is read as beginning with `this`. -/
theorem codeStages_receiver_spaced :
    let s := mastScope "this.th\u00a0is.r."
    let plain : Target := ⟨"th\u00a0is.r.", "th\u00a0is.r", ""⟩
    let prefixed : Target := ⟨"this.th\u00a0is.r.", "this.th\u00a0is.r", ""⟩
    s.LeavesWords ∧ s.namespaceStage plain = .notApplicable ∧ s.namespaceStage prefixed = .notApplicable ∧
      (∀ word : Receiver, plain.chain.toList.takeWhile isIdentifierChar ≠ word.word.toList) ∧
      prefixed = Target.of s.context.text ∧ s.codeStages prefixed = .notApplicable ∧
      s.codeStages plain ≠ s.codeStages prefixed := by
  intro s plain prefixed
  have leaves : s.LeavesWords := leavesWords_mastScope (by decide +kernel) (by decide +kernel)
  have noNamespace : s.namespaceStage plain = .notApplicable := by decide +kernel
  have noLongerNamespace : s.namespaceStage prefixed = .notApplicable := by decide +kernel
  obtain ⟨own, inherited⟩ : s.context.declarations.Unreserved ∧ s.context.inherited.Unreserved :=
    Context.unreserved _ _
  have reads : segmentsOf plain.chain.toList = [{ name := Receiver.this.word }, { name := "r" }] := by decide
  have longerReads : segmentsOf prefixed.chain.toList =
      [{ name := Receiver.this.word }, { name := Receiver.this.word }, { name := "r" }] := by decide
  have names : ∀ seg ∈ [({ name := "r" } : Segment)], ']' ∉ seg.name.toList := by decide
  have none : s.codeStages prefixed = .notApplicable := by
    rw [codeStages_of_word leaves own inherited (by decide) noLongerNamespace longerReads,
      localChain_word leaves own inherited (r := .this) rfl, staticChain_word leaves (r := .this) rfl names]
    rfl
  have means : s.localHead? { name := "r" } = some (.type { info := rope }) := by decide +kernel
  have stage : (s.receiverStage plain).isApplicable = true := by
    have first : receiver? { name := Receiver.this.word } = some .this := rfl
    have dotted : plain.hasDot = true := by decide
    simp [receiverStage, dotted, reads, first, Outcome.orElse, isApplicable_localChain means (by decide)]
  have some : (s.codeStages plain).isApplicable = true := by
    rw [codeStages_of_dotted (by decide) noNamespace]
    simp [Outcome.orElse, stage]
  refine ⟨leaves, noNamespace, noLongerNamespace, fun word => by cases word <;> decide, ?_, none, fun same => ?_⟩
  · decide +kernel
  · rw [same, none] at some
    exact Bool.noConfusion some

end Typeahead.Lookup.Scope
