import Mathlib.Data.List.FinRange
import Mathlib.Data.List.ReduceOption
import Typeahead.Proofs.Server.EditRange
import Typeahead.Proofs.Server.Ranks

namespace Typeahead

open Text

namespace Server

open Lookup Workspace

section Places

variable {templates : List Template}

/-- The place of the first template of a label that is not taken. -/
def firstFree? (templates : List Template) (taken : List (Option (Fin templates.length))) (label : String) :
    Option (Fin templates.length) :=
  (List.finRange templates.length).find? fun p => (templates.get p).label = label ∧ some p ∉ taken

/-- The places that are not taken, in their order. -/
def freePlaces (templates : List Template) (taken : List (Option (Fin templates.length))) :
    List (Fin templates.length) :=
  (List.finRange templates.length).filter fun p => some p ∉ taken

/-- What the items claim one after the other, by the places of the templates. -/
def claimsFrom (templates : List Template) :
    List (Option (Fin templates.length)) → List Item → List (Option (Fin templates.length))
  | _, [] => []
  | taken, item :: items =>
    let claimed := firstFree? templates taken item.displayText
    claimed :: claimsFrom templates (taken ++ [claimed]) items

theorem claim_eq (label : String) (templates : List Template) :
    claim label templates =
      (templates.find? fun t => t.label = label, templates.eraseP fun t => t.label = label) := by
  induction templates with
  | nil => rfl
  | cons t templates ih =>
    by_cases named : t.label = label
    · simp [claim, named]
    · simp [claim, named, ih]

theorem nodup_freePlaces (taken : List (Option (Fin templates.length))) : (freePlaces templates taken).Nodup :=
  (List.nodup_finRange _).filter _

theorem firstFree?_eq (taken : List (Option (Fin templates.length))) (label : String) :
    firstFree? templates taken label =
      (freePlaces templates taken).find? fun p => (templates.get p).label = label := by
  rw [freePlaces, List.find?_filter, firstFree?]
  congr 1
  funext p
  simp [and_comm]

/-- Nothing is taken by an item without a template. -/
theorem freePlaces_none (taken : List (Option (Fin templates.length))) :
    freePlaces templates (taken ++ [none]) = freePlaces templates taken := by
  simp [freePlaces]

theorem freePlaces_some (taken : List (Option (Fin templates.length))) (p : Fin templates.length) :
    freePlaces templates (taken ++ [some p]) = (freePlaces templates taken).erase p := by
  rw [(nodup_freePlaces taken).erase_eq_filter, freePlaces, freePlaces, List.filter_filter]
  congr 1
  funext q
  by_cases same : q = p
  · simp [same]
  · simp [same]

theorem eraseP_eq_erase {α : Type} [DecidableEq α] {xs : List α} {q : α → Bool} {x : α}
    (found : xs.find? q = some x) : xs.eraseP q = xs.erase x := by
  obtain ⟨here, before, after, rfl, none⟩ := List.find?_eq_some_iff_append.mp found
  have absent : x ∉ before := by
    intro member
    have := none x member
    simp [here] at this
  rw [List.erase_append_right _ absent, List.erase_cons_head,
    List.eraseP_append_right _ (fun a member => by simpa using none a member), List.eraseP_cons_of_pos here]

/-- A claim in the list of the templates that are left. -/
theorem claim_freePlaces (taken : List (Option (Fin templates.length))) (label : String) :
    claim label ((freePlaces templates taken).map templates.get) =
      ((firstFree? templates taken label).map templates.get,
        (freePlaces templates (taken ++ [firstFree? templates taken label])).map templates.get) := by
  rw [claim_eq, List.find?_map, List.eraseP_map, firstFree?_eq]
  refine Prod.ext rfl (congrArg (List.map templates.get) ?_)
  cases found : (freePlaces templates taken).find? fun p => (templates.get p).label = label with
  | none =>
    rw [freePlaces_none]
    exact List.eraseP_of_forall_not (List.find?_eq_none.mp found)
  | some p =>
    rw [freePlaces_some]
    exact eraseP_eq_erase found

/-- The items with what they claim, and the templates that are left over. -/
theorem pair_freePlaces (items : List Item) (taken : List (Option (Fin templates.length))) :
    pair items ((freePlaces templates taken).map templates.get) =
      ((items.zip (claimsFrom templates taken items)).map fun (item, claimed) => (item, claimed.map templates.get),
        (freePlaces templates (taken ++ claimsFrom templates taken items)).map templates.get) := by
  induction items generalizing taken with
  | nil => simp [pair, claimsFrom]
  | cons item items ih =>
    rw [pair, claim_freePlaces]
    simp only [ih, claimsFrom, List.zip_cons_cons, List.map_cons, List.append_assoc, List.singleton_append]

theorem length_claimsFrom (taken : List (Option (Fin templates.length))) (items : List Item) :
    (claimsFrom templates taken items).length = items.length := by
  induction items generalizing taken with
  | nil => rfl
  | cons item items ih => simp [claimsFrom, ih]

/-- Each item claims the first template of its label that no earlier item claims. -/
theorem getElem?_claimsFrom (taken : List (Option (Fin templates.length))) {items : List Item} {i : Nat} {item : Item}
    (here : items[i]? = some item) :
    (claimsFrom templates taken items)[i]? =
      some (firstFree? templates (taken ++ (claimsFrom templates taken items).take i) item.displayText) := by
  induction items generalizing taken i with
  | nil => simp at here
  | cons first items ih =>
    cases i with
    | zero =>
      obtain rfl : first = item := by simpa using here
      simp [claimsFrom]
    | succ i =>
      have later := ih (taken ++ [firstFree? templates taken first.displayText]) (by simpa using here)
      simpa [claimsFrom] using later

/-- Every template that was free is claimed once or left over. -/
theorem perm_claimsFrom (taken : List (Option (Fin templates.length))) (items : List Item) :
    ((claimsFrom templates taken items).reduceOption ++
        freePlaces templates (taken ++ claimsFrom templates taken items)).Perm
      (freePlaces templates taken) := by
  induction items generalizing taken with
  | nil => simp [claimsFrom]
  | cons item items ih =>
    have rest := ih (taken ++ [firstFree? templates taken item.displayText])
    rw [List.append_assoc, List.singleton_append] at rest
    rw [claimsFrom]
    cases found : firstFree? templates taken item.displayText with
    | none =>
      simp only [found, freePlaces_none] at rest
      rwa [List.reduceOption_cons_of_none]
    | some p =>
      have free : p ∈ freePlaces templates taken := List.mem_of_find?_eq_some (firstFree?_eq taken _ ▸ found)
      simp only [found, freePlaces_some] at rest
      rw [List.reduceOption_cons_of_some, List.cons_append]
      exact (rest.cons p).trans (List.perm_cons_erase free).symm

end Places

section Entries

theorem forall₂_of_mapM {α β : Type} {f : α → Except CutError β} {xs : List α} {ys : List β}
    (all : xs.mapM f = .ok ys) : List.Forall₂ (fun x y => f x = .ok y) xs ys := by
  induction xs generalizing ys with
  | nil =>
    obtain rfl : [] = ys := Except.ok.inj all
    exact .nil
  | cons x xs ih =>
    rw [List.mapM_cons] at all
    obtain ⟨y, head, all⟩ := bind_eq_ok.mp all
    obtain ⟨more, tail, all⟩ := bind_eq_ok.mp all
    obtain rfl : y :: more = ys := Except.ok.inj all
    exact .cons head (ih tail)

theorem exists_of_forall₂ {α β : Type} {R : α → β → Prop} {xs : List α} {ys : List β} (all : List.Forall₂ R xs ys)
    {i : Nat} {x : α} (here : xs[i]? = some x) : ∃ y, ys[i]? = some y ∧ R x y := by
  induction all generalizing i with
  | nil => simp at here
  | cons head _ ih =>
    cases i with
    | zero =>
      obtain rfl := Option.some.inj here
      exact ⟨_, rfl, head⟩
    | succ i => exact ih (by simpa using here)

theorem Entry.of_ofItem {item : Item} {rank : Nat} {range : Range} {template : Option Template} {entry : Entry}
    (built : Entry.ofItem item rank range template = .ok entry) :
    entry.label = item.displayText ∧ entry.sortText = sortTextOf rank ∧ entry.isSnippet = template.isSome := by
  cases template with
  | none =>
    obtain ⟨text, -, built⟩ := bind_eq_ok.mp built
    obtain rfl := Except.ok.inj built
    exact ⟨rfl, rfl, rfl⟩
  | some t =>
    obtain ⟨text, -, built⟩ := bind_eq_ok.mp built
    obtain rfl := Except.ok.inj built
    exact ⟨rfl, rfl, rfl⟩

theorem Entry.isWritable_of_ofItem {item : Item} {rank : Nat} {range : Range} {t : Template} {entry : Entry}
    (built : Entry.ofItem item rank range (some t) = .ok entry) : t.IsWritable := by
  obtain ⟨text, snippet, -⟩ := bind_eq_ok.mp built
  exact Template.exists_snippet_iff.mp ⟨text, snippet⟩

theorem Entry.isWritable_of_ofTemplate {t : Template} {rank : Nat} {range : Range} {entry : Entry}
    (built : Entry.ofTemplate t rank range = .ok entry) : t.IsWritable := by
  unfold Entry.ofTemplate at built
  obtain ⟨text, snippet, -⟩ := bind_eq_ok.mp built
  exact Template.exists_snippet_iff.mp ⟨text, snippet⟩

theorem Entry.of_ofTemplate {template : Template} {rank : Nat} {range : Range} {entry : Entry}
    (built : Entry.ofTemplate template rank range = .ok entry) :
    entry.label = template.label ∧ entry.sortText = sortTextOf rank ∧ entry.isSnippet = true := by
  unfold Entry.ofTemplate at built
  obtain ⟨text, -, built⟩ := bind_eq_ok.mp built
  obtain rfl := Except.ok.inj built
  exact ⟨rfl, rfl, rfl⟩

/-- Which templates the items of a list claim and which are left over, all by their places. -/
structure IsPairing (items : List Item) (templates : List Template) (claims : List (Option (Fin templates.length)))
    (left : List (Fin templates.length)) : Prop where
  length_eq : claims.length = items.length
  /-- An item claims the first template of its label that no earlier item claims. -/
  earliest : ∀ (i : Nat) (item : Item), items[i]? = some item →
    claims[i]? = some (firstFree? templates (claims.take i) item.displayText)
  label : ∀ (i : Nat) (item : Item) (p : Fin templates.length), items[i]? = some item →
    claims[i]? = some (some p) → (templates.get p).label = item.displayText
  left_eq : left = freePlaces templates claims
  /-- Every template is claimed once or left over. -/
  once : (claims.reduceOption ++ left).Perm (List.finRange templates.length)

/-- The entries of a list: one for each item with the template that it claims, and then one for each template
that is left over. -/
structure IsListing (entries : List Entry) (range : Range) (items : List Item) (templates : List Template)
    (claims : List (Option (Fin templates.length))) (left : List (Fin templates.length)) : Prop where
  length_eq : entries.length = items.length + left.length
  item : ∀ (i : Nat) (item : Item) (claimed : Option (Fin templates.length)), items[i]? = some item →
    claims[i]? = some claimed →
    ∃ entry, entries[i]? = some entry ∧ entry.label = item.displayText ∧ entry.isSnippet = claimed.isSome ∧
      Entry.ofItem item i range (claimed.map templates.get) = .ok entry
  template : ∀ (j : Nat) (p : Fin templates.length), left[j]? = some p →
    ∃ entry, entries[items.length + j]? = some entry ∧ entry.label = (templates.get p).label ∧
      entry.isSnippet = true ∧ Entry.ofTemplate (templates.get p) (items.length + j) range = .ok entry

theorem freePlaces_nil (templates : List Template) :
    (freePlaces templates []).map templates.get = templates := by
  simp [freePlaces]

theorem pair_eq (items : List Item) (templates : List Template) :
    pair items templates =
      ((items.zip (claimsFrom templates [] items)).map fun (item, claimed) => (item, claimed.map templates.get),
        (freePlaces templates (claimsFrom templates [] items)).map templates.get) := by
  have whole : pair items ((freePlaces templates []).map templates.get) = _ := pair_freePlaces items []
  rwa [freePlaces_nil, List.nil_append] at whole

theorem isPairing_claimsFrom (items : List Item) (templates : List Template) :
    IsPairing items templates (claimsFrom templates [] items)
      (freePlaces templates (claimsFrom templates [] items)) where
  length_eq := length_claimsFrom [] items
  earliest i item here := by simpa using getElem?_claimsFrom [] here
  label i item p here claimed := by
    have found := (getElem?_claimsFrom [] here).symm.trans claimed
    exact (of_decide_eq_true (List.find?_eq_some_iff_append.mp (Option.some.inj found)).1).1
  left_eq := rfl
  once := by
    have all : List.Perm _ (freePlaces templates []) := perm_claimsFrom [] items
    have free : freePlaces templates [] = List.finRange templates.length := by simp [freePlaces]
    rwa [free, List.nil_append] at all

theorem isListing_of_mapM {items : List Item} {templates : List Template} {range : Range}
    {claims : List (Option (Fin templates.length))} {left : List (Fin templates.length)} {first second : List Entry}
    (same : claims.length = items.length)
    (ofItems : (((items.zip claims).map fun (item, claimed) => (item, claimed.map templates.get)).zipIdx.mapM
      fun ((item, template), rank) => Entry.ofItem item rank range template) = .ok first)
    (ofTemplates : ((left.map templates.get).zipIdx.mapM
      fun (template, rank) => Entry.ofTemplate template (items.length + rank) range) = .ok second) :
    IsListing (first ++ second) range items templates claims left := by
  have each := forall₂_of_mapM ofItems
  have others := forall₂_of_mapM ofTemplates
  have length : first.length = items.length := by
    have := each.length_eq
    simp only [List.length_zipIdx, List.length_map, List.length_zip] at this
    omega
  refine ⟨?_, fun i item claimed inItems inClaims => ?_, fun j p inLeft => ?_⟩
  · have := others.length_eq
    simp only [List.length_zipIdx, List.length_map] at this
    rw [List.length_append, length, this]
  · have both : (items.zip claims)[i]? = some (item, claimed) := List.getElem?_zip_eq_some.mpr ⟨inItems, inClaims⟩
    have here : ((items.zip claims).map fun (item, claimed) => (item, claimed.map templates.get)).zipIdx[i]? =
        some ((item, claimed.map templates.get), i) := by
      rw [List.getElem?_zipIdx, List.getElem?_map, both]
      simp
    obtain ⟨entry, inFirst, built⟩ := exists_of_forall₂ each here
    have fields := Entry.of_ofItem built
    refine ⟨entry, ?_, fields.1, by simpa using fields.2.2, built⟩
    rwa [List.getElem?_append_left (List.getElem?_eq_some_iff.mp inFirst).1]
  · have here : (left.map templates.get).zipIdx[j]? = some (templates.get p, j) := by
      rw [List.getElem?_zipIdx, List.getElem?_map, inLeft]
      simp
    obtain ⟨entry, inSecond, built⟩ := exists_of_forall₂ others here
    have fields := Entry.of_ofTemplate built
    refine ⟨entry, ?_, fields.1, fields.2.2, built⟩
    rwa [List.getElem?_append_right (by omega), length, Nat.add_sub_cancel_left]

namespace IsListing

variable {entries : List Entry} {range : Range} {items : List Item} {templates : List Template}
  {claims : List (Option (Fin templates.length))} {left : List (Fin templates.length)}

/-- An entry of the list is that of an item or that of a template that is left over. -/
theorem cases (listing : IsListing entries range items templates claims left) (same : claims.length = items.length)
    {i : Nat} {entry : Entry} (here : entries[i]? = some entry) :
    (∃ item claimed, items[i]? = some item ∧ claims[i]? = some claimed ∧
        Entry.ofItem item i range (claimed.map templates.get) = .ok entry) ∨
      ∃ j p, i = items.length + j ∧ left[j]? = some p ∧ Entry.ofTemplate (templates.get p) i range = .ok entry := by
  obtain ⟨bound, -⟩ := List.getElem?_eq_some_iff.mp here
  rw [listing.length_eq] at bound
  by_cases isItem : i < items.length
  · have inItems := List.getElem?_eq_getElem isItem
    have inClaims := List.getElem?_eq_getElem (same ▸ isItem)
    obtain ⟨found, inEntries, -, -, built⟩ := listing.item i _ _ inItems inClaims
    obtain rfl : entry = found := Option.some.inj (here.symm.trans inEntries)
    exact .inl ⟨_, _, inItems, inClaims, built⟩
  · obtain ⟨j, rfl⟩ := Nat.exists_eq_add_of_le (Nat.not_lt.mp isItem)
    have inLeft := List.getElem?_eq_getElem (show j < left.length by omega)
    obtain ⟨found, inEntries, -, -, built⟩ := listing.template j _ inLeft
    obtain rfl : entry = found := Option.some.inj (here.symm.trans inEntries)
    exact .inr ⟨j, _, rfl, inLeft, built⟩

theorem sortText (listing : IsListing entries range items templates claims left) (same : claims.length = items.length)
    {i : Nat} {entry : Entry} (here : entries[i]? = some entry) : entry.sortText = sortTextOf i := by
  rcases listing.cases same here with ⟨item, claimed, -, -, built⟩ | ⟨j, p, -, -, built⟩
  · exact (Entry.of_ofItem built).2.1
  · exact (Entry.of_ofTemplate built).2.1

/-- The texts that a client sorts by keep the order of the list. -/
theorem sorted (listing : IsListing entries range items templates claims left) (same : claims.length = items.length)
    (few : entries.length ≤ 100000) : (entries.map (·.sortText)).Pairwise (· < ·) := by
  have texts : entries.map (·.sortText) = (List.range entries.length).map sortTextOf := by
    refine List.ext_getElem (by simp) fun i first second => ?_
    have bound : i < entries.length := by simpa using first
    simp [listing.sortText same (List.getElem?_eq_getElem bound)]
  rw [texts, List.pairwise_map]
  refine List.Pairwise.imp_of_mem (fun {a b} _ inRange lt => ?_) List.pairwise_lt_range
  exact sortTextOf_lt (by have := List.mem_range.mp inRange; omega) lt

/-- The list shows every template, so each of them can be written out. -/
theorem isWritable (listing : IsListing entries range items templates claims left)
    (pairing : IsPairing items templates claims left) {t : Template} (member : t ∈ templates) : t.IsWritable := by
  obtain ⟨p, rfl⟩ := List.mem_iff_get.mp member
  rcases List.mem_append.mp (pairing.once.mem_iff.mpr (List.mem_finRange p)) with claimed | isLeft
  · obtain ⟨i, inClaims⟩ := List.mem_iff_getElem?.mp (List.reduceOption_mem_iff.mp claimed)
    obtain ⟨bound, -⟩ := List.getElem?_eq_some_iff.mp inClaims
    have inItems := List.getElem?_eq_getElem (pairing.length_eq ▸ bound)
    obtain ⟨entry, -, -, -, built⟩ := listing.item i _ _ inItems inClaims
    exact Entry.isWritable_of_ofItem built
  · obtain ⟨j, inLeft⟩ := List.mem_iff_getElem?.mp isLeft
    obtain ⟨entry, -, -, -, built⟩ := listing.template j p inLeft
    exact Entry.isWritable_of_ofTemplate built

end IsListing

/-- The list with its pairing and its entries, for the items that are shown. -/
theorem CompletionList.exists_isListing {d : Document} {caret : Nat} {r : Response} {list : CompletionList}
    (built : CompletionList.of d caret r = .ok list) :
    ∃ claims left,
      IsPairing ((filterByLookAhead r.lookAhead r.outcome.items).take maxItems) r.templates claims left ∧
      IsListing list.entries ⟨d.positionAt (caret - r.lookAhead.utf8ByteSize), d.positionAt caret⟩
        ((filterByLookAhead r.lookAhead r.outcome.items).take maxItems) r.templates claims left ∧
      list.isIncomplete = decide (maxItems < (filterByLookAhead r.lookAhead r.outcome.items).length) := by
  have pairing :=
    isPairing_claimsFrom ((filterByLookAhead r.lookAhead r.outcome.items).take maxItems) r.templates
  unfold CompletionList.of at built
  simp only [pair_eq] at built
  obtain ⟨first, ofItems, built⟩ := bind_eq_ok.mp built
  obtain ⟨second, ofTemplates, built⟩ := bind_eq_ok.mp built
  obtain rfl := Except.ok.inj built
  refine ⟨_, _, pairing, isListing_of_mapM pairing.length_eq ofItems ?_, rfl⟩
  rwa [List.length_map, List.length_zip, pairing.length_eq, Nat.min_self] at ofTemplates

/-- A list is built from a response exactly when its templates can be written out, so from the response of every
language. It shows the first 200 of the items that fit the typed text, each with the first template of its label
that no earlier item claims, and then the templates that are left over; so every template is shown once. -/
theorem CompletionList.of_conserves (d : Document) (caret : Nat) (r : Response) :
    ((∃ list, CompletionList.of d caret r = .ok list) ↔ ∀ t ∈ r.templates, t.IsWritable) ∧
      (∀ (language : Language) (tree : Option FileTree) (catalog : Catalog) (nonPublic : Bool) (source : List Char)
        (place : Nat), language.complete (tree.map pathHelper) catalog nonPublic source place = .ok r →
          ∃ list, CompletionList.of d caret r = .ok list) ∧
      ∀ list, CompletionList.of d caret r = .ok list →
        let candidates := filterByLookAhead r.lookAhead r.outcome.items
        let range : Range := ⟨d.positionAt (caret - r.lookAhead.utf8ByteSize), d.positionAt caret⟩
        (∃ claims left, IsPairing (candidates.take 200) r.templates claims left ∧
            IsListing list.entries range (candidates.take 200) r.templates claims left) ∧
          (list.isIncomplete = true ↔ 200 < candidates.length) ∧
          (∀ entry ∈ list.entries, entry.range = range) ∧
          (list.entries.length ≤ 100000 → (list.entries.map (·.sortText)).Pairwise (· < ·)) := by
  refine ⟨⟨?_, fun writable => CompletionList.exists_of_isWritable writable d caret⟩, ?_, ?_⟩
  · rintro ⟨list, built⟩ t member
    obtain ⟨claims, left, pairing, listing, -⟩ := CompletionList.exists_isListing built
    exact listing.isWritable pairing member
  · intro language tree catalog nonPublic source place answer
    exact CompletionList.exists_of_haveCursors (Language.templates_haveCursors answer) d caret
  · intro list built
    obtain ⟨claims, left, pairing, listing, incomplete⟩ := CompletionList.exists_isListing built
    refine ⟨⟨claims, left, pairing, listing⟩, ?_, fun entry member => CompletionList.range_of_mem built member,
      listing.sorted pairing.length_eq⟩
    rw [incomplete, decide_eq_true_eq]
    rfl

/-- Two items and three templates share a label; one template has a label that no item has. -/
def CompletionList.repeatedResponse : Response where
  outcome := .resolved [Item.named "a" .tag "markup", Item.named "b" .tag "markup", Item.named "a" .tag "markup"]
  templates := [⟨"c", "c>", 2⟩, ⟨"a", "a></a>", 2⟩, ⟨"a", "a>", 9⟩, ⟨"a", "é", 2⟩]

theorem CompletionList.of_conserves_repeated :
    (∀ t ∈ repeatedResponse.templates, t.IsWritable) ∧
      ∃ list, CompletionList.of ⟨"html", 0, "<", 0⟩ 1 repeatedResponse = .ok list ∧
        list.entries.map (·.newText) = ["a>$0</a>", "b", "a>$0", "c>$0", "é$0"] ∧
        (list.entries.map (·.sortText)).Pairwise (· < ·) ∧ list.isIncomplete = false ∧
        ∃ closing, CompletionList.of Language.closingTagPage 6 Language.closingTagResponse = .ok closing := by
  have writable : ∀ t ∈ repeatedResponse.templates, t.IsWritable := by
    simp only [repeatedResponse, List.mem_cons, List.not_mem_nil, or_false, forall_eq_or_imp, forall_eq]
    exact ⟨.inr (by decide), .inl ⟨['a', '>'], "</a>".toList, by decide, by decide⟩, .inr (by decide), .inr (by decide)⟩
  have texts : (CompletionList.of ⟨"html", 0, "<", 0⟩ 1 repeatedResponse).map (·.entries.map (·.newText)) =
      .ok ["a>$0</a>", "b", "a>$0", "c>$0", "é$0"] := by rfl
  obtain ⟨exact, -, each⟩ := CompletionList.of_conserves ⟨"html", 0, "<", 0⟩ 1 repeatedResponse
  obtain ⟨list, built⟩ := exact.mpr writable
  obtain ⟨-, incomplete, -, sorted⟩ := each list built
  rw [built] at texts
  have shown := Except.ok.inj texts
  have few : list.entries.length ≤ 100000 := by
    have length := congrArg List.length shown
    simp only [List.length_map, List.length_cons, List.length_nil] at length
    omega
  have answer : Language.html.complete ((none : Option FileTree).map pathHelper) ⟨{}, []⟩ false
      Language.closingTagPage.text.toList 6 = .ok Language.closingTagResponse := by decide +kernel
  obtain ⟨-, always, -⟩ := CompletionList.of_conserves Language.closingTagPage 6 Language.closingTagResponse
  exact ⟨writable, list, built, shown, sorted few, Bool.eq_false_iff.mpr (mt incomplete.mp (by decide)),
    always _ _ _ _ _ _ answer⟩

/-- A list cannot be built when a cursor stands inside a character. -/
theorem CompletionList.of_cursor_in_character :
    CompletionList.of ⟨"html", 0, "<", 0⟩ 1
      { outcome := .resolved [Item.named "a" .tag "markup"], templates := [⟨"a", "é", 1⟩] } =
        .error .offBoundary := by
  rfl

end Entries

end Server

end Typeahead
