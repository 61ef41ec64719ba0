import Mathlib.Data.Finset.Card
import Mathlib.Data.List.Dedup
import Typeahead.Proofs.Lookup.CandidateSet

namespace Typeahead.Lookup

open Text

/-- An item as it is made: with a name, a text to insert, a category and an origin, and then with any number of
tooltips and at most one signature. -/
inductive Item.IsBuilt : (signed : Bool) → Item → Prop
  | new (displayText insertText : String) (category : Category) (origin : String) :
      IsBuilt false { displayText, insertText, category, origin }
  | withTooltip {signed : Bool} {item : Item} (tooltip : String) :
      IsBuilt signed item → IsBuilt signed (item.withTooltip tooltip)
  | withSignature {item : Item} (signature : String) : IsBuilt false item → IsBuilt true (item.withSignature signature)

/-- An item has at most the overload that its signature makes. -/
theorem Item.IsBuilt.length_overloads_le {signed : Bool} {item : Item} (built : item.IsBuilt signed) :
    item.overloads.length ≤ signed.toNat := by
  induction built with
  | new => exact Nat.le_refl _
  | withTooltip _ _ ih => exact ih
  | @withSignature item signature _ ih =>
    have none : item.overloads = [] := List.length_eq_zero_iff.mp (Nat.le_zero.mp ih)
    unfold Item.withSignature
    split <;> simp [none]

/-- The signatures of the methods among some items. -/
def methodSignatures (items : List Item) : List String :=
  (items.filter (·.category.isMethod)).flatMap (·.overloads)

/-- The overloads of a method and of the later items of its name, without repetitions. -/
def Item.joinedOverloads (first : Item) (later : List Item) : List String :=
  keepFirst (first.overloads ++ methodSignatures later)

/-- What an item becomes with the later ones of its name. Anything but a method stays as it is. A method gets the
signatures of the later methods; if it has several then, its tooltip counts them. -/
def Item.joined (first : Item) (later : List Item) : Item :=
  if first.category.isMethod then
    let overloads := first.joinedOverloads later
    let several := 1 < overloads.length
    { first with
      overloads
      category := if several ∧ first.category = .method then .methodOverload else first.category
      tooltip :=
        if several then overloads.head?.map (· ++ overloadSuffix (overloads.length - 1)) else first.tooltip }
  else first

theorem addOverloads_keepFirst (seen added : List String) :
    addOverloads (keepFirst seen) added = keepFirst (seen ++ added) := by
  induction added generalizing seen with
  | nil => rw [addOverloads, List.append_nil]
  | cons signature added ih =>
    have known : (keepFirst seen).contains signature = true ↔ signature ∈ seen := by
      rw [List.contains_iff_mem, mem_keepFirst]
    simp only [addOverloads, known]
    rw [← keepFirst_append_singleton, ih, List.append_assoc, List.singleton_append]

theorem joined_nil {first : Item} (few : first.overloads.length ≤ 1) : first.joined [] = first := by
  have same : first.joinedOverloads [] = first.overloads := by
    rw [Item.joinedOverloads, methodSignatures, List.filter_nil, List.flatMap_nil, List.append_nil]
    match first.overloads, few with
    | [], _ => rfl
    | [_], _ => rfl
  unfold Item.joined
  rw [same]
  split
  · simp [Nat.not_lt.mpr few]
  · rfl

theorem isMethod_joined (first : Item) (later : List Item) :
    (first.joined later).category.isMethod = first.category.isMethod := by
  unfold Item.joined
  split
  · next isMethod =>
    simp only
    split
    · exact isMethod.symm
    · rfl
  · rfl

theorem overloads_joined {first : Item} (isMethod : first.category.isMethod = true) (later : List Item) :
    (first.joined later).overloads = first.joinedOverloads later := by
  rw [Item.joined, if_pos isMethod]

theorem joinedOverloads_concat (first : Item) (later : List Item) {item : Item}
    (isMethod : item.category.isMethod = true) :
    first.joinedOverloads (later ++ [item]) = addOverloads (first.joinedOverloads later) item.overloads := by
  have last : methodSignatures (later ++ [item]) = methodSignatures later ++ item.overloads := by
    simp [methodSignatures, isMethod]
  rw [Item.joinedOverloads, Item.joinedOverloads, addOverloads_keepFirst, last, List.append_assoc]

theorem joined_concat_of_not_isMethod (first : Item) (later : List Item) {item : Item}
    (other : item.category.isMethod = false) : first.joined (later ++ [item]) = first.joined later := by
  have same : methodSignatures (later ++ [item]) = methodSignatures later := by simp [methodSignatures, other]
  rw [Item.joined, Item.joined, Item.joinedOverloads, Item.joinedOverloads, same]

/-- One more item of the name changes the item to what it becomes with all of them. -/
theorem merge_joined (first : Item) (later : List Item) (item : Item) :
    (first.joined later).merge item = first.joined (later ++ [item]) := by
  rw [Item.merge, isMethod_joined]
  cases isMethod : first.category.isMethod with
  | false => simp [Item.joined, isMethod]
  | true =>
    cases isItemMethod : item.category.isMethod with
    | false => rw [joined_concat_of_not_isMethod first later isItemMethod]; rfl
    | true =>
      rw [Bool.and_self, if_pos rfl, overloads_joined isMethod, ← joinedOverloads_concat first later isItemMethod]
      -- the overloads before are the first ones of those after
      obtain ⟨more, after⟩ := addOverloads_eq_append (first.joinedOverloads later) item.overloads
      rw [← joinedOverloads_concat first later isItemMethod] at after
      have grows : (first.joinedOverloads later).length ≤ (first.joinedOverloads (later ++ [item])).length := by
        rw [after, List.length_append]
        exact Nat.le_add_right _ _
      unfold Item.joined
      rw [if_pos isMethod, if_pos isMethod]
      split
      · next none =>
        rw [none, List.length_nil, Nat.le_zero, List.length_eq_zero_iff] at grows
        simp [grows, none]
      · next only single =>
        rw [single, List.length_singleton] at grows
        simp [Nat.not_lt.mpr grows, single]
      · next signature second others several =>
        rw [several]
        by_cases plain : first.category = .method
        · by_cases before : 1 < (first.joinedOverloads later).length <;> simp [plain, before]
        · simp [plain]

/-- The items of one name make together what the first becomes with the later ones. -/
theorem foldl_merge_eq_joined {first : Item} (few : first.overloads.length ≤ 1) (later : List Item) :
    later.foldl Item.merge first = first.joined later := by
  induction later using List.reverseRecOn with
  | nil => exact (joined_nil few).symm
  | append_singleton later item ih => rw [List.foldl_append, ih, List.foldl_cons, List.foldl_nil, merge_joined]

/-- What is done to a set. -/
inductive SetOperation where
  | insert (item : Item)
  | extend (items : List Item)

/-- The items that an operation inserts. -/
def SetOperation.items : SetOperation → List Item
  | .insert item => [item]
  | .extend items => items

namespace CandidateSet

def apply (set : CandidateSet) : SetOperation → CandidateSet
  | .insert item => set.insert item
  | .extend items => set.insertAll items

/-- The set after some operations. -/
def run (operations : List SetOperation) : CandidateSet := operations.foldl apply {}

theorem apply_eq_insertAll (set : CandidateSet) (operation : SetOperation) :
    set.apply operation = set.insertAll operation.items := by
  cases operation <;> rfl

/-- Operations insert their items one after the other. -/
theorem run_eq_ofList (operations : List SetOperation) : run operations = ofList (operations.flatMap (·.items)) := by
  induction operations using List.reverseRecOn with
  | nil => rfl
  | append_singleton operations operation ih =>
    rw [run, List.foldl_append, ← run, ih, List.foldl_cons, List.foldl_nil, apply_eq_insertAll, ofList, ofList,
      List.flatMap_append, List.flatMap_singleton, insertAll_append]

/-- An item of a set is what the first item of its name becomes with the later ones. -/
theorem exists_joined_of_mem {items : List Item} {item : Item} (few : ∀ x ∈ items, x.overloads.length ≤ 1)
    (member : item ∈ (ofList items).items) : ∃ first later,
      items.filter (Item.isNamed item.displayText) = first :: later ∧ item = first.joined later := by
  have made := mergeAll?_of_mem member
  cases named : items.filter (Item.isNamed item.displayText) with
  | nil => simp [named, mergeAll?] at made
  | cons first later =>
    rw [named] at made
    have inside : first ∈ items.filter (Item.isNamed item.displayText) := by rw [named]; exact List.mem_cons_self
    have joins := foldl_merge_eq_joined (few first (List.mem_filter.mp inside).1) later
    exact ⟨first, later, rfl, (Option.some.inj made).symm.trans joins⟩

/-- A set after any sequence of insertions of items as they are made. Its names are distinct and stand in the order
in which they were first inserted; its size is the number of different names; and the item of a name is what the
first item of the name becomes with the later ones. Inserting two lists one after the other is inserting the one
list that they make. -/
theorem items_run (operations : List SetOperation)
    (built : ∀ item ∈ operations.flatMap (·.items), ∃ signed, item.IsBuilt signed) :
    (run operations).items.map (·.displayText) =
        keepFirst ((operations.flatMap (·.items)).map (·.displayText)) ∧
      ((run operations).items.map (·.displayText)).Nodup ∧
      (run operations).size = ((operations.flatMap (·.items)).map (·.displayText)).toFinset.card ∧
      (∀ item ∈ (run operations).items, ∃ first later,
        (operations.flatMap (·.items)).filter (Item.isNamed item.displayText) = first :: later ∧
          item = first.joined later) ∧
      ∀ (set : CandidateSet) xs ys, (set.insertAll xs).insertAll ys = set.insertAll (xs ++ ys) := by
  have few : ∀ item ∈ operations.flatMap (·.items), item.overloads.length ≤ 1 := by
    intro item member
    obtain ⟨signed, isBuilt⟩ := built item member
    exact isBuilt.length_overloads_le.trans signed.toNat_le
  rw [run_eq_ofList]
  have names := map_displayText_ofList (operations.flatMap (·.items))
  have distinct := nodup_ofList (operations.flatMap (·.items))
  refine ⟨names, distinct, ?_, fun item => exists_joined_of_mem few, fun set xs ys =>
    (insertAll_append set xs ys).symm⟩
  have same : ((ofList (operations.flatMap (·.items))).items.map (·.displayText)).toFinset =
      ((operations.flatMap (·.items)).map (·.displayText)).toFinset := by
    ext name
    rw [names, List.mem_toFinset, List.mem_toFinset, mem_keepFirst]
  rw [← same, List.toFinset_card_of_nodup distinct, List.length_map]
  rfl

/-- A method without a signature, a property of its name, and two overloads of it, one of them twice. -/
def writeOperations : List SetOperation :=
  let write := Item.named "Write" .method "members"
  [.insert write, .insert (Item.named "Count" .property "members"),
    .extend [write.withSignature "void Write(int v)", (Item.named "Write" .property "statics").withTooltip "int Write"],
    .extend [write.withSignature "void Write(string v)", write.withSignature "void Write(int v)"]]

theorem items_run_write :
    (∀ item ∈ writeOperations.flatMap (·.items), ∃ signed, item.IsBuilt signed) ∧
      (run writeOperations).items.map (·.displayText) = ["Write", "Count"] ∧ (run writeOperations).size = 2 ∧
      ∀ item ∈ (run writeOperations).items, item.displayText = "Write" → item =
        { displayText := "Write", insertText := "Write", category := .methodOverload, origin := "members",
          overloads := ["void Write(int v)", "void Write(string v)"],
          tooltip := some "void Write(int v) (+1 overload)" } := by
  have built : ∀ item ∈ writeOperations.flatMap (·.items), ∃ signed, item.IsBuilt signed := by
    have named (name : String) (category : Category) (origin : String) :
        (Item.named name category origin).IsBuilt false := .new name name category origin
    intro item member
    simp only [writeOperations, List.flatMap_cons, List.flatMap_nil, SetOperation.items, List.cons_append,
      List.nil_append, List.append_nil, List.mem_cons, List.not_mem_nil, or_false] at member
    rcases member with rfl | rfl | rfl | rfl | rfl | rfl
    · exact ⟨false, named ..⟩
    · exact ⟨false, named ..⟩
    · exact ⟨true, .withSignature _ (named ..)⟩
    · exact ⟨false, .withTooltip _ (named ..)⟩
    · exact ⟨true, .withSignature _ (named ..)⟩
    · exact ⟨true, .withSignature _ (named ..)⟩
  obtain ⟨names, -, size, joins, -⟩ := items_run writeOperations built
  refine ⟨built, names.trans (by decide), size.trans (by decide), fun item member isWrite => ?_⟩
  obtain ⟨first, later, listed, rfl⟩ := joins item member
  rw [isWrite] at listed
  have all : (writeOperations.flatMap (·.items)).filter (Item.isNamed "Write") =
      (writeOperations.flatMap (·.items)).eraseIdx 1 := by decide
  obtain ⟨rfl, rfl⟩ := List.cons.inj (listed.symm.trans all)
  decide

end CandidateSet

end Typeahead.Lookup
