import Typeahead.Catalog.Loader

namespace Typeahead.Catalog

/-- A cache in front of a loader. A name gets its entry when its first load ends, a failure as well as a success, and
keeps it. -/
structure Cache where
  entries : List (String × Option Assembly) := []
  deriving Repr

namespace Cache

/-- The entry of a name, if it has one. -/
def find? (cache : Cache) (name : String) : Option (Option Assembly) := cache.entries.lookup name

/-- Enters the outcome of a load unless the name has an entry, and gives the entry that stands. -/
def settle (cache : Cache) (name : String) (loaded : Option Assembly) : Option Assembly × Cache :=
  match cache.find? name with
  | some standing => (standing, cache)
  | none => (loaded, ⟨cache.entries ++ [(name, loaded)]⟩)

/-- Looks a name up and loads it on a miss, with nobody else at work. -/
def get (cache : Cache) (loader : Loader) (name : String) : Option Assembly × Cache :=
  match cache.find? name with
  | some standing => (standing, cache)
  | none => cache.settle name (loader.load name).toOption

/-- Looks up names one after the other. -/
def getAll (cache : Cache) (loader : Loader) (names : List String) : Cache :=
  names.foldl (fun cache name => (cache.get loader name).2) cache

/-- How many names have an assembly. -/
def loadedCount (cache : Cache) : Nat := (cache.entries.filter (·.2.isSome)).length

/-- The names that were loaded, with success or without. -/
def names (cache : Cache) : List String := cache.entries.map (·.1)

theorem find?_settle_of_find? {cache : Cache} {name other : String} {standing loaded : Option Assembly}
    (h : cache.find? other = some standing) :
    (cache.settle name loaded).2.find? other = some standing := by
  unfold settle
  split
  · exact h
  · next absent =>
    simp only [find?] at h ⊢
    rw [List.lookup_append, h]; rfl

end Cache

end Typeahead.Catalog
