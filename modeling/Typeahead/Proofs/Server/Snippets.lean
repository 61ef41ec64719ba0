import Typeahead.Language
import Typeahead.Lookup.PathHelper
import Typeahead.Proofs.Text.Boundary
import Typeahead.Server.CompletionList

namespace Typeahead

open Text Lookup Workspace Server

namespace Lookup

/-- The cursor stands at a boundary of the text. -/
def Template.HasCursor (t : Template) : Prop := IsBoundary t.cursorOffset t.text.toList

theorem Template.hasCursor_append (label head tail : String) :
    Template.HasCursor ⟨label, head ++ tail, head.utf8ByteSize⟩ := by
  have boundary := isBoundary_append head.toList tail.toList
  rw [utf8Length_toList] at boundary
  simpa [Template.HasCursor] using boundary

/-- At the end. -/
theorem Template.hasCursor_end (label text : String) : Template.HasCursor ⟨label, text, text.utf8ByteSize⟩ := by
  have whole := Template.hasCursor_append label text ""
  rwa [String.append_empty] at whole

/-- In front of the last byte. -/
theorem Template.hasCursor_beforeLast (label head tail : String) {text : String} (split : text = head ++ tail)
    (one : tail.utf8ByteSize = 1) : Template.HasCursor ⟨label, text, text.utf8ByteSize - 1⟩ := by
  have size : text.utf8ByteSize - 1 = head.utf8ByteSize := by
    rw [split, String.utf8ByteSize_append, one, Nat.add_sub_cancel]
  rw [size, split]
  exact Template.hasCursor_append label head tail

/-- The template can be written out: its cursor stands at a boundary of the text or behind the end. -/
def Template.IsWritable (t : Template) : Prop := t.HasCursor ∨ utf8Length t.text.toList ≤ t.cursorOffset

theorem Template.exists_snippet_iff {t : Template} : (∃ text, t.snippet = .ok text) ↔ t.IsWritable := by
  have cut : (∃ text, t.snippet = .ok text) ↔
      IsBoundary (min t.cursorOffset (utf8Length t.text.toList)) t.text.toList := by
    unfold Template.snippet
    simp only [map_eq_ok, isBoundary_iff_cut]
    exact ⟨fun ⟨_, parts, found, _⟩ => ⟨parts, found⟩, fun ⟨parts, found⟩ => ⟨_, parts, found, rfl⟩⟩
  rw [cut, IsWritable, HasCursor]
  rcases Nat.le_total (utf8Length t.text.toList) t.cursorOffset with behind | within
  · rw [Nat.min_eq_right behind]
    exact iff_of_true (isBoundary_utf8Length _) (.inr behind)
  · rw [Nat.min_eq_left within]
    refine ⟨.inl, fun writable => writable.elim id fun behind => ?_⟩
    rw [Nat.le_antisymm within behind]
    exact isBoundary_utf8Length _

/-- Every template of a response can be written out. -/
def Response.HaveCursors (r : Response) : Prop := ∀ t ∈ r.templates, t.HasCursor

theorem Response.haveCursors_of_nil {r : Response} (none : r.templates = []) : r.HaveCursors := by
  simp [HaveCursors, none]

end Lookup

namespace Markup

theorem hasCursor_propertyTemplate (name : String) : (propertyTemplate name).HasCursor := by
  refine Template.hasCursor_beforeLast name (name ++ ": ") ";" ?_ rfl
  rw [String.append_assoc]
  rfl

theorem hasCursor_attributeTemplate (name : String) : (attributeTemplate name).HasCursor := by
  refine Template.hasCursor_beforeLast name (name ++ "=\"") "\"" ?_ rfl
  rw [String.append_assoc]
  rfl

theorem hasCursor_tagTemplate (dialect : Dialect) (tag : TagSpec) : (tagTemplate dialect tag).HasCursor := by
  unfold tagTemplate
  split
  · exact Template.hasCursor_end _ _
  · simp only [String.append_assoc]
    exact Template.hasCursor_append _ _ _

theorem StyleTarget.haveCursors (target : StyleTarget) : target.respond.HaveCursors := by
  cases target with
  | none => exact Response.haveCursors_of_nil rfl
  | property typed =>
    intro t member
    obtain ⟨name, -, rfl⟩ := List.mem_map.mp member
    exact hasCursor_propertyTemplate name
  | value name typed =>
    simp only [StyleTarget.respond]
    split <;> exact Response.haveCursors_of_nil rfl

theorem haveCursors_of_completeStyle {before : List Char} {response : Response}
    (answer : completeStyle before = .ok response) : response.HaveCursors := by
  obtain ⟨target, -, rfl⟩ := map_eq_ok.mp answer
  exact target.haveCursors

theorem Dictionary.haveCursors {d : Dictionary} {before : List Char} {target : Target} {response : Response}
    (answer : d.respond before target = .ok response) : response.HaveCursors := by
  cases target with
  | content =>
    simp only [Dictionary.respond, Except.ok.injEq] at answer
    exact answer ▸ Response.haveCursors_of_nil rfl
  | tagName typed =>
    simp only [Dictionary.respond, Except.ok.injEq] at answer
    subst answer
    intro t member
    obtain ⟨tag, -, rfl⟩ := List.mem_map.mp member
    exact hasCursor_tagTemplate d.dialect tag
  | closingTag typed =>
    simp only [Dictionary.respond, Except.ok.injEq] at answer
    exact answer ▸ Response.haveCursors_of_nil rfl
  | attributeName tag typed present =>
    simp only [Dictionary.respond, Except.ok.injEq] at answer
    subst answer
    intro t member
    obtain ⟨name, -, rfl⟩ := List.mem_map.mp member
    exact hasCursor_attributeTemplate name
  | attributeValue tag attr typed =>
    simp only [Dictionary.respond] at answer
    split at answer
    · obtain ⟨target, -, rfl⟩ := map_eq_ok.mp answer
      exact target.haveCursors
    · simp only [Except.ok.injEq] at answer
      subst answer
      unfold Dictionary.valueItems
      split <;> exact Response.haveCursors_of_nil rfl

theorem haveCursors_of_completeMarkup {script : Option Script} {source : List Char} {caret : Nat}
    {response : Response} (answer : completeMarkup script source caret = .ok response) :
    response.HaveCursors := by
  unfold completeMarkup at answer
  obtain ⟨⟨before, rest⟩, -, answer⟩ := bind_eq_ok.mp answer
  simp only at answer
  split at answer
  · simp only [pure, Except.pure, Except.ok.injEq] at answer
    exact answer ▸ Response.haveCursors_of_nil rfl
  · split at answer
    · exact haveCursors_of_completeStyle answer
    · obtain ⟨target, -, answer⟩ := bind_eq_ok.mp answer
      exact Dictionary.haveCursors answer

end Markup

theorem Lookup.haveCursors_ofOutcome (outcome : Outcome) (typed : String) :
    (Response.ofOutcome outcome typed).HaveCursors := by
  unfold Response.ofOutcome
  split <;> exact Response.haveCursors_of_nil rfl

theorem Lookup.haveCursors_pathHelper (t : FileTree) (marker : Char) (typed : List Char) :
    (pathHelper t marker typed).HaveCursors := by
  unfold pathHelper
  split <;> exact Response.haveCursors_of_nil rfl

theorem Lookup.haveCursors_of_lookupCode {tree : Option FileTree} {catalog : Catalog} {nonPublic : Bool}
    {source : List Char} {caret : Nat} {response : Response}
    (answer : lookupCode (tree.map pathHelper) catalog nonPublic source caret = .ok response) :
    response.HaveCursors := by
  unfold lookupCode at answer
  obtain ⟨⟨before, rest⟩, -, answer⟩ := bind_eq_ok.mp answer
  simp only at answer
  split at answer
  · simp only [pure, Except.pure, Except.ok.injEq] at answer
    cases tree with
    | none => exact answer ▸ Response.haveCursors_of_nil rfl
    | some t => exact answer ▸ haveCursors_pathHelper t _ _
  · split at answer
    · simp only [pure, Except.pure, Except.ok.injEq] at answer
      exact answer ▸ Response.haveCursors_of_nil rfl
    · obtain ⟨parts, -, answer⟩ := bind_eq_ok.mp answer
      simp only [pure, Except.pure, Except.ok.injEq] at answer
      exact answer ▸ haveCursors_ofOutcome _ _

theorem Language.templates_haveCursors {tree : Option FileTree} {catalog : Catalog} {nonPublic : Bool}
    {source : List Char} {caret : Nat} {language : Language} {response : Response}
    (answer : language.complete (tree.map pathHelper) catalog nonPublic source caret = .ok response) :
    response.HaveCursors := by
  cases language with
  | csharp => exact haveCursors_of_lookupCode answer
  | html => exact Markup.haveCursors_of_completeMarkup answer
  | php => exact Markup.haveCursors_of_completeMarkup answer
  | erb => exact Markup.haveCursors_of_completeMarkup answer
  | css =>
    simp only [Language.complete, Language.completeSheet] at answer
    split at answer
    · exact Markup.haveCursors_of_completeStyle answer
    · simp only [Except.ok.injEq] at answer
      exact answer ▸ Response.haveCursors_of_nil rfl

namespace Server

theorem exists_of_mem_mapM {α β : Type} {f : α → Except CutError β} {xs : List α} {ys : List β} {y : β}
    (all : xs.mapM f = .ok ys) (member : y ∈ ys) : ∃ x ∈ xs, f x = .ok y := by
  induction xs generalizing ys with
  | nil =>
    simp only [List.mapM_nil, pure, Except.pure, Except.ok.injEq] at all
    simp [← all] at member
  | cons x xs ih =>
    rw [List.mapM_cons] at all
    obtain ⟨first, head, all⟩ := bind_eq_ok.mp all
    obtain ⟨others, tail, all⟩ := bind_eq_ok.mp all
    simp only [pure, Except.pure, Except.ok.injEq] at all
    rcases List.mem_cons.mp (all ▸ member) with rfl | later
    · exact ⟨x, by simp, head⟩
    · obtain ⟨z, inside, same⟩ := ih tail later
      exact ⟨z, by simp [inside], same⟩

theorem Entry.range_ofItem {item : Item} {rank : Nat} {range : Range} {template : Option Template}
    {entry : Entry} (built : Entry.ofItem item rank range template = .ok entry) : entry.range = range := by
  cases template with
  | none =>
    obtain ⟨newText, -, built⟩ := bind_eq_ok.mp built
    simp only [pure, Except.pure, Except.ok.injEq] at built
    rw [← built]
  | some t =>
    obtain ⟨newText, -, built⟩ := bind_eq_ok.mp built
    simp only [pure, Except.pure, Except.ok.injEq] at built
    rw [← built]

theorem Entry.range_ofTemplate {template : Template} {rank : Nat} {range : Range} {entry : Entry}
    (built : Entry.ofTemplate template rank range = .ok entry) : entry.range = range := by
  unfold Entry.ofTemplate at built
  obtain ⟨newText, -, built⟩ := bind_eq_ok.mp built
  simp only [pure, Except.pure, Except.ok.injEq] at built
  rw [← built]

/-- Every entry replaces the same range: as many bytes before the caret as the typed text has. -/
theorem CompletionList.range_of_mem {d : Document} {caret : Nat} {r : Response} {list : CompletionList}
    (built : CompletionList.of d caret r = .ok list) {entry : Entry} (member : entry ∈ list.entries) :
    entry.range = ⟨d.positionAt (caret - r.lookAhead.utf8ByteSize), d.positionAt caret⟩ := by
  unfold CompletionList.of at built
  obtain ⟨items, first, built⟩ := bind_eq_ok.mp built
  obtain ⟨snippets, second, built⟩ := bind_eq_ok.mp built
  simp only [pure, Except.pure, Except.ok.injEq] at built
  subst built
  rcases List.mem_append.mp member with item | snippet
  · obtain ⟨⟨⟨item, template⟩, rank⟩, -, one⟩ := exists_of_mem_mapM first item
    exact Entry.range_ofItem one
  · obtain ⟨⟨template, rank⟩, -, one⟩ := exists_of_mem_mapM second snippet
    exact Entry.range_ofTemplate one

theorem mapM_isOk {α β : Type} {f : α → Except CutError β} {xs : List α}
    (each : ∀ x ∈ xs, ∃ y, f x = .ok y) : ∃ ys, xs.mapM f = .ok ys := by
  induction xs with
  | nil => exact ⟨[], rfl⟩
  | cons x xs ih =>
    obtain ⟨y, head⟩ := each x (by simp)
    obtain ⟨ys, tail⟩ := ih fun z inside => each z (by simp [inside])
    refine ⟨y :: ys, ?_⟩
    rw [List.mapM_cons, head, tail]
    rfl

theorem claim_subset (label : String) (templates : List Template) :
    (∀ t, (claim label templates).1 = some t → t ∈ templates) ∧ (claim label templates).2 ⊆ templates := by
  induction templates with
  | nil => simp [claim]
  | cons first others ih =>
    obtain ⟨claimed, left⟩ := ih
    by_cases named : first.label = label
    · simp [claim, named]
    · simp only [claim, named, if_false]
      exact ⟨fun t same => List.mem_cons_of_mem _ (claimed t same), List.cons_subset_cons _ left⟩

/-- Items claim templates of the response only, and those that are left over are of it too. -/
theorem pair_subset (items : List Item) (templates : List Template) :
    (∀ item t, (item, some t) ∈ (pair items templates).1 → t ∈ templates) ∧
      (pair items templates).2 ⊆ templates := by
  induction items generalizing templates with
  | nil => simp [pair]
  | cons first items ih =>
    obtain ⟨claimed, left⟩ := claim_subset first.displayText templates
    obtain ⟨paired, unclaimed⟩ := ih (claim first.displayText templates).2
    simp only [pair]
    refine ⟨fun item t member => ?_, List.Subset.trans unclaimed left⟩
    rcases List.mem_cons.mp member with here | later
    · exact claimed t (by simp only [Prod.mk.injEq] at here; exact here.2.symm)
    · exact left (paired item t later)

theorem exists_itemEntries {paired : List (Item × Option Template)} {range : Range}
    (writable : ∀ item t, (item, some t) ∈ paired → t.IsWritable) :
    ∃ entries, (paired.zipIdx.mapM fun ((item, template), rank) => Entry.ofItem item rank range template) =
      .ok entries := by
  apply mapM_isOk
  rintro ⟨⟨item, template⟩, rank⟩ member
  cases template with
  | none => exact ⟨_, rfl⟩
  | some t =>
    have inside : (item, some t) ∈ paired := List.fst_mem_of_mem_zipIdx member
    obtain ⟨text, snippet⟩ := Template.exists_snippet_iff.mpr (writable item t inside)
    exact ⟨_, bind_eq_ok.mpr ⟨text, snippet, rfl⟩⟩

theorem exists_templateEntries {left : List Template} {start : Nat} {range : Range}
    (writable : ∀ t ∈ left, t.IsWritable) :
    ∃ entries, (left.zipIdx.mapM fun (t, rank) => Entry.ofTemplate t (start + rank) range) =
      .ok entries := by
  apply mapM_isOk
  rintro ⟨t, rank⟩ member
  obtain ⟨text, snippet⟩ := Template.exists_snippet_iff.mpr (writable t (List.fst_mem_of_mem_zipIdx member))
  exact ⟨_, bind_eq_ok.mpr ⟨text, snippet, rfl⟩⟩

theorem CompletionList.exists_of_isWritable {r : Response} (writable : ∀ t ∈ r.templates, t.IsWritable) (d : Document)
    (caret : Nat) : ∃ list, CompletionList.of d caret r = .ok list := by
  obtain ⟨claimed, left⟩ :=
    pair_subset ((filterByLookAhead r.lookAhead r.outcome.items).take maxItems) r.templates
  obtain ⟨items, first⟩ := exists_itemEntries fun item t member => writable t (claimed item t member)
  obtain ⟨snippets, second⟩ := exists_templateEntries fun t member => writable t (left member)
  exact ⟨_, bind_eq_ok.mpr ⟨items, first, bind_eq_ok.mpr ⟨snippets, second, rfl⟩⟩⟩

theorem CompletionList.exists_of_haveCursors {r : Response} (cursors : r.HaveCursors) (d : Document)
    (caret : Nat) : ∃ list, CompletionList.of d caret r = .ok list :=
  CompletionList.exists_of_isWritable (fun t member => .inl (cursors t member)) d caret

end Server

end Typeahead
