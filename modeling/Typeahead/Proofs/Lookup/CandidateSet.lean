import Mathlib.Data.List.Induction
import Typeahead.Catalog.Metadata
import Typeahead.Lookup.Item
import Typeahead.Text.Dotted

namespace Typeahead.Text

theorem keepFirst_append_singleton (names : List String) (name : String) :
    keepFirst (names ++ [name]) = if name ∈ names then keepFirst names else keepFirst names ++ [name] := by
  induction names with
  | nil => rfl
  | cons first more ih =>
    rw [List.cons_append, keepFirst, keepFirst, ih]
    by_cases inside : name ∈ more
    · rw [if_pos inside, if_pos (List.mem_cons_of_mem _ inside)]
    · rw [if_neg inside, List.filter_append]
      by_cases same : name = first
      · simp [same]
      · simp [same, inside]

end Typeahead.Text

namespace Typeahead.Lookup

open Catalog

def Item.isNamed (name : String) (item : Item) : Bool := item.displayText == name

@[simp] theorem Item.isNamed_merge (name : String) (existing repeated : Item) :
    (existing.merge repeated).isNamed name = existing.isNamed name := by simp [Item.isNamed]

theorem Item.isNamed_displayText (item : Item) : item.isNamed item.displayText = true := by simp [Item.isNamed]

/-- An item found for the name it already has merges into the item that stands there; else it comes last. -/
theorem find?_insertItem (item : Item) (items : List Item) (name : String) :
    (insertItem item items).find? (Item.isNamed name) =
      if item.isNamed name then some ((items.find? (Item.isNamed name)).elim item (·.merge item))
      else items.find? (Item.isNamed name) := by
  induction items with
  | nil => cases named : item.isNamed name <;> simp [insertItem, named]
  | cons first items ih =>
    unfold insertItem
    by_cases same : first.displayText = item.displayText
    · have alike : first.isNamed name = item.isNamed name := by simp [Item.isNamed, same]
      cases named : item.isNamed name <;> simp [same, alike, named]
    · rw [if_neg same]
      cases firstNamed : first.isNamed name
      · simp only [List.find?_cons, firstNamed, ih]
      · have other : item.isNamed name = false := by
          simp only [Item.isNamed, beq_iff_eq] at firstNamed
          simpa [Item.isNamed] using fun eq : item.displayText = name => same (firstNamed.trans eq.symm)
        simp [firstNamed, other]

/-- The item that items of one name make together. -/
def mergeAll? : List Item → Option Item
  | [] => none
  | first :: later => some (later.foldl Item.merge first)

theorem CandidateSet.find?_insertAll (set : CandidateSet) (items : List Item) (name : String) :
    (set.insertAll items).items.find? (Item.isNamed name) =
      mergeAll? ((set.items.find? (Item.isNamed name)).toList ++ items.filter (Item.isNamed name)) := by
  induction items generalizing set with
  | nil => cases found : set.items.find? (Item.isNamed name) <;> simp [insertAll, found, mergeAll?]
  | cons item items ih =>
    have step : set.insertAll (item :: items) = (set.insert item).insertAll items := rfl
    rw [step, ih, insert, find?_insertItem]
    cases named : item.isNamed name
    · simp [named]
    · cases set.items.find? (Item.isNamed name) <;> simp [named, mergeAll?]

theorem CandidateSet.find?_ofList (items : List Item) (name : String) :
    (ofList items).items.find? (Item.isNamed name) = mergeAll? (items.filter (Item.isNamed name)) := by
  rw [ofList, find?_insertAll]
  rfl

theorem CandidateSet.nodup_insertAll {set : CandidateSet} (items : List Item)
    (distinct : (set.items.map (·.displayText)).Nodup) :
    ((set.insertAll items).items.map (·.displayText)).Nodup := by
  induction items generalizing set with
  | nil => exact distinct
  | cons item items ih => exact ih (nodup_insert item distinct)

theorem CandidateSet.nodup_ofList (items : List Item) : ((ofList items).items.map (·.displayText)).Nodup :=
  nodup_insertAll items List.nodup_nil

/-- A set keeps every name once, in the order in which they come first. -/
theorem CandidateSet.map_displayText_ofList (items : List Item) :
    (ofList items).items.map (·.displayText) = Text.keepFirst (items.map (·.displayText)) := by
  induction items using List.reverseRecOn with
  | nil => rfl
  | append_singleton items item ih =>
    have last : ofList (items ++ [item]) = (ofList items).insert item := insertAll_append _ _ _
    rw [last, insert, map_displayText_insertItem, ih, List.map_append, List.map_singleton,
      Text.keepFirst_append_singleton]
    simp only [Text.mem_keepFirst]

theorem find?_isNamed_of_mem {items : List Item} {item : Item} (member : item ∈ items)
    (distinct : (items.map (·.displayText)).Nodup) :
    items.find? (Item.isNamed item.displayText) = some item := by
  induction items with
  | nil => simp at member
  | cons first items ih =>
    obtain ⟨fresh, distinct⟩ := List.nodup_cons.mp distinct
    rcases List.mem_cons.mp member with rfl | later
    · rw [List.find?_cons, item.isNamed_displayText]
    · have other : first.isNamed item.displayText = false := by
        simp only [Item.isNamed, beq_eq_false_iff_ne]
        exact fun same => fresh (List.mem_map.mpr ⟨item, later, same.symm⟩)
      rw [List.find?_cons, other]
      exact ih later distinct

/-- An item of a set is the first of its name in the list, merged with the later ones. -/
theorem CandidateSet.mergeAll?_of_mem {items : List Item} {item : Item} (member : item ∈ (ofList items).items) :
    mergeAll? (items.filter (Item.isNamed item.displayText)) = some item := by
  rw [← find?_ofList]
  exact find?_isNamed_of_mem member (nodup_ofList items)

theorem CandidateSet.exists_mem_of_mem_ofList {items : List Item} {item : Item}
    (member : item ∈ (ofList items).items) : ∃ first ∈ items, first.displayText = item.displayText := by
  have made := mergeAll?_of_mem member
  cases named : items.filter (Item.isNamed item.displayText) with
  | nil => simp [named, mergeAll?] at made
  | cons first later =>
    have inside : first ∈ items.filter (Item.isNamed item.displayText) := by simp [named]
    obtain ⟨listed, same⟩ := List.mem_filter.mp inside
    exact ⟨first, listed, by simpa [Item.isNamed] using same⟩

/-- The item tells what the member is: by its category, and by the member's signature, which is the first
overload of a method and the tooltip of anything else. -/
structure Item.Describes (item : Item) (m : MemberInfo) : Prop where
  named : item.displayText = m.name
  inserts : item.insertText = m.name
  other : (m.category false).isMethod = false →
    item.category = m.category false ∧ item.tooltip = some m.signature ∧ item.overloads = []
  method : (m.category false).isMethod = true →
    item.overloads.head? = some m.signature ∧
      item.category = if item.overloads.length = 1 then .method else .methodOverload

theorem category_eq_method {m : MemberInfo} (isMethod : (m.category false).isMethod = true) :
    m.category false = .method := by
  cases kind : m.kind with
  | method | constructor => simp [MemberInfo.category, kind]
  | property | event => simp [MemberInfo.category, kind, Category.isMethod] at isMethod
  | field =>
    cases constant : m.isLiteral <;>
      simp [MemberInfo.category, kind, constant, Category.isMethod] at isMethod

theorem Item.describes_item (m : MemberInfo) : (m.item false).Describes m where
  named := rfl
  inserts := rfl
  other := by
    intro plain
    simp [MemberInfo.item, Item.named, Item.withSignature, plain]
  method := by
    intro isMethod
    simp [MemberInfo.item, Item.named, Item.withSignature, category_eq_method isMethod, Category.isMethod]

theorem addOverloads_eq_append (known added : List String) : ∃ more, addOverloads known added = known ++ more := by
  induction added generalizing known with
  | nil => exact ⟨[], by simp [addOverloads]⟩
  | cons s added ih =>
    obtain ⟨more, extended⟩ := ih (if known.contains s then known else known ++ [s])
    unfold addOverloads
    by_cases old : known.contains s
    · exact ⟨more, by rw [extended, if_pos old]⟩
    · exact ⟨s :: more, by rw [extended, if_neg old, List.append_assoc, List.singleton_append]⟩

/-- Merging keeps what the first item describes. -/
theorem Item.Describes.merge {item : Item} {m : MemberInfo} (describes : item.Describes m) (repeated : Item) :
    (item.merge repeated).Describes m := by
  cases isMethod : (m.category false).isMethod with
  | false =>
    have plain : item.category.isMethod = false := by rw [(describes.other isMethod).1, isMethod]
    have unchanged : item.merge repeated = item := by simp [Item.merge, plain]
    rw [unchanged]
    exact describes
  | true =>
    obtain ⟨first, category⟩ := describes.method isMethod
    unfold Item.merge
    split
    · obtain ⟨more, extended⟩ := addOverloads_eq_append item.overloads repeated.overloads
      obtain ⟨later, held⟩ : ∃ later, item.overloads = m.signature :: later := by
        cases overloads : item.overloads with
        | nil => simp [overloads] at first
        | cons s later => exact ⟨later, by simpa [overloads] using first⟩
      rw [extended, held, List.cons_append]
      cases added : later ++ more with
      | nil =>
        obtain ⟨rfl, rfl⟩ := List.append_eq_nil_iff.mp added
        refine ⟨describes.named, describes.inserts, by simp [isMethod], fun _ => ⟨rfl, ?_⟩⟩
        simpa [held] using category
      | cons second others =>
        refine ⟨describes.named, describes.inserts, by simp [isMethod], fun _ => ⟨rfl, ?_⟩⟩
        by_cases single : item.overloads.length = 1
        · simp [category, single]
        · simp [category, single]
    · exact describes

theorem Item.Describes.foldl_merge {item : Item} {m : MemberInfo} (describes : item.Describes m)
    (later : List Item) : (later.foldl Item.merge item).Describes m := by
  induction later generalizing item with
  | nil => exact describes
  | cons repeated later ih => exact ih (describes.merge repeated)

end Typeahead.Lookup
