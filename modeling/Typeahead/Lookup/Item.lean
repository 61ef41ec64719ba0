namespace Typeahead.Lookup

inductive Category where
  | classType
  | interfaceType
  | enumType
  | delegateType
  | valueType
  | property
  | method
  | methodOverload
  | field
  | constant
  | event
  | namespaceName
  | extensionMethod
  | localVariable
  | tag
  | attributeName
  | attributeValue
  | cssProperty
  | cssValue
  | path
  deriving DecidableEq, Repr

def Category.isMethod : Category → Bool
  | .method | .methodOverload | .extensionMethod => true
  | _ => false

/-- A name that a lookup offers. -/
structure Item where
  displayText : String
  insertText : String
  category : Category
  tooltip : Option String := none
  /-- The signatures of a method; empty for anything else. -/
  overloads : List String := []
  /-- The stage that found the item. -/
  origin : String
  deriving DecidableEq, Repr

/-- An item that inserts the name it shows. -/
def Item.named (name : String) (category : Category) (origin : String) : Item :=
  { displayText := name, insertText := name, category, origin }

def Item.withTooltip (item : Item) (tooltip : String) : Item := { item with tooltip := some tooltip }

/-- The signature becomes the tooltip, and for a method the next overload as well. -/
def Item.withSignature (item : Item) (signature : String) : Item :=
  { item with
    tooltip := some signature
    overloads := if item.category.isMethod then item.overloads ++ [signature] else item.overloads }

/-- The signatures followed by those of the second list that are new. -/
def addOverloads (known : List String) : List String → List String
  | [] => known
  | s :: more => addOverloads (if known.contains s then known else known ++ [s]) more

/-- How a tooltip counts the overloads after the first. -/
def overloadSuffix (count : Nat) : String :=
  " (+" ++ toString count ++ (if count = 1 then " overload)" else " overloads)")

/-- The item for a name that is found once more. -/
def Item.merge (existing repeated : Item) : Item :=
  if existing.category.isMethod && repeated.category.isMethod then
    match addOverloads existing.overloads repeated.overloads with
    | [] => existing
    | [only] => { existing with overloads := [only] }
    | first :: second :: more =>
      { existing with
        overloads := first :: second :: more
        category := if existing.category = .method then .methodOverload else existing.category
        tooltip := some (first ++ overloadSuffix (more.length + 1)) }
  else existing

@[simp] theorem Item.displayText_merge (existing repeated : Item) :
    (existing.merge repeated).displayText = existing.displayText := by
  unfold Item.merge; split
  · split <;> rfl
  · rfl

def insertItem (item : Item) : List Item → List Item
  | [] => [item]
  | first :: items =>
    if first.displayText = item.displayText then first.merge item :: items
    else first :: insertItem item items

theorem map_displayText_insertItem (item : Item) (items : List Item) :
    (insertItem item items).map (·.displayText) =
      if item.displayText ∈ items.map (·.displayText) then items.map (·.displayText)
      else items.map (·.displayText) ++ [item.displayText] := by
  induction items with
  | nil => rfl
  | cons first items ih =>
    simp only [insertItem]
    by_cases same : first.displayText = item.displayText
    · simp [same]
    · have other : item.displayText ≠ first.displayText := fun eq => same eq.symm
      simp only [if_neg same, List.map_cons, List.mem_cons, other, false_or, ih]
      split <;> simp

/-- The items found so far, in order. -/
structure CandidateSet where
  items : List Item := []
  deriving Repr

namespace CandidateSet

def size (set : CandidateSet) : Nat := set.items.length

def isEmpty (set : CandidateSet) : Bool := set.items.isEmpty

def insert (set : CandidateSet) (item : Item) : CandidateSet := ⟨insertItem item set.items⟩

def insertAll (set : CandidateSet) (items : List Item) : CandidateSet := items.foldl insert set

def ofList (items : List Item) : CandidateSet := insertAll {} items

theorem insertAll_append (set : CandidateSet) (xs ys : List Item) :
    set.insertAll (xs ++ ys) = (set.insertAll xs).insertAll ys := List.foldl_append

theorem nodup_insert {set : CandidateSet} (item : Item)
    (distinct : (set.items.map (·.displayText)).Nodup) :
    ((set.insert item).items.map (·.displayText)).Nodup := by
  rw [insert, map_displayText_insertItem]
  split
  · exact distinct
  · next fresh =>
    refine List.nodup_append.mpr ⟨distinct, by simp, ?_⟩
    intro a inside b last same
    simp only [List.mem_singleton] at last
    exact fresh (by rw [← last, ← same]; exact inside)

end CandidateSet

end Typeahead.Lookup
