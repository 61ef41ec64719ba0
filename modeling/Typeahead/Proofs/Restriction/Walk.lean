import Typeahead.Lookup.Walk
import Typeahead.Proofs.Restriction.Members

namespace Typeahead.Lookup

open Catalog Source

def Walk.restrict (keep : Selection) : Walk → Walk
  | .type t => .type (t.restrict keep)
  | .void => .void
  | .failed => .failed

def Hop.restrict (keep : Selection) : Hop → Hop
  | .member found => .member (found.restrict keep)
  | .nested info => .nested (info.restrict keep)
  | .extensionMethod found => .extensionMethod (found.restrict keep)
  | .missing => .missing

variable {keep : Selection}

theorem Walk.ofType_restrict (t : ResolvedType) : Walk.ofType (t.restrict keep) = (Walk.ofType t).restrict keep := by
  unfold Walk.ofType
  rw [ResolvedType.isVoid_restrict]
  split <;> rfl

theorem Walk.ofType?_restrict (t : Option ResolvedType) :
    Walk.ofType? (t.map (·.restrict keep)) = (Walk.ofType? t).restrict keep := by
  cases t with
  | none => rfl
  | some t => exact Walk.ofType_restrict t

@[simp] theorem Hop.isVoid_restrict (hop : Hop) : (hop.restrict keep).isVoid = hop.isVoid := by
  cases hop <;> rfl

@[simp] theorem Hop.mayEnd_restrict (seg : Segment) (hop : Hop) :
    (hop.restrict keep).mayEnd seg = hop.mayEnd seg := by
  cases hop <;> rfl

theorem selectOverload_restrict {f : Found} {seg : Segment} (kept : (selectOverload f seg).isKept keep = true) :
    selectOverload (f.restrict keep) seg = (selectOverload f seg).restrict keep := by
  unfold selectOverload at kept ⊢
  cases called : seg.argumentCount with
  | none => rfl
  | some count =>
    simp only [called] at kept ⊢
    show (if f.member.kind = .method then _ else _) = Found.restrict keep (if f.member.kind = .method then _ else _)
    by_cases isMethod : f.member.kind = .method
    · rw [if_pos isMethod] at kept
      rw [if_pos isMethod, if_pos isMethod]
      refine congrArg (fun m => Found.mk (Option.getD m f.member) (f.declaring.restrict keep)) ?_
      refine find?_filter_of_kept fun m found => ?_
      dsimp only [Found.restrict] at found
      rw [found] at kept
      exact kept
    · rw [if_neg isMethod, if_neg isMethod]

namespace Scope

/-- The scope over the catalog with the selected members alone. -/
def restrict (s : Scope) (keep : Selection) : Scope := { s with catalog := s.catalog.restrict keep }

/-- The members that a segment rests on: what it finds under its name, and what a call makes of it. -/
def hopUses (s : Scope) (t : ResolvedType) (seg : Segment) (mode : BindingMode) (nonPublic : Bool) : List Found :=
  match s.catalog.findMember? t seg.name mode nonPublic with
  | some found => [found, selectOverload found seg]
  | none => if mode = .typeStatics then [] else (findExtension? s.importedTypes seg.name).toList

/-- The members that the segments followed from a type rest on. -/
def followUses (s : Scope) (t : ResolvedType) (mode : BindingMode) (nonPublic : Bool) : List Segment → List Found
  | [] => []
  | seg :: rest =>
    let hop := s.hop t seg mode nonPublic
    s.hopUses t seg mode nonPublic ++
      if hop.isVoid then []
      else
        match s.step t seg hop with
        | none => []
        | some (next, mode) => s.followUses next mode s.nonPublic rest

def walkUses (s : Scope) (head : ResolvedType) (segments : List Segment) (mode : BindingMode)
    (nonPublic : Bool) : List Found :=
  if head.isVoid then [] else s.followUses head mode nonPublic segments

variable (s : Scope)

theorem resolve?_restrict (written : String) :
    (s.restrict keep).resolve? written = (s.resolve? written).map (·.restrict keep) :=
  s.catalog.resolve?_restrict _ _

theorem typeOf?_restrict (f : Found) :
    (s.restrict keep).typeOf? (f.restrict keep) = (s.typeOf? f).map (·.restrict keep) :=
  s.catalog.resolveMember?_restrict _ _ _

theorem importedTypes_restrict : (s.restrict keep).importedTypes = s.importedTypes.map (·.restrict keep) :=
  s.catalog.typesIn_restrict _

theorem filterMap_resolve?_restrict (written : List String) :
    written.filterMap (s.restrict keep).resolve? = (written.filterMap s.resolve?).map (·.restrict keep) := by
  rw [List.map_filterMap]
  exact congrArg (List.filterMap · written) (funext s.resolve?_restrict)

/-- The scope goes by public members alone, and the selection has them all. -/
structure Trusts (keep : Selection) : Prop where
  publicOnly : s.nonPublic = false
  keepsPublic : keep.KeepsPublic

variable {s} (trusts : s.Trusts keep)
include trusts

theorem indexer?_restrict (t : ResolvedType) :
    (s.restrict keep).indexer? (t.restrict keep) = (s.indexer? t).map (·.restrict keep) := by
  unfold indexer?
  rw [List.map_findSome?]
  refine congrArg (List.findSome? · _) (funext fun name => ?_)
  show ((s.catalog.restrict keep).findMember? (t.restrict keep) name .instanceMembers s.nonPublic).filter _ = _
  rw [trusts.publicOnly, findMember?_restrict_of_public trusts.keepsPublic, Option.filter_map]
  rfl

theorem elementOf?_restrict (t : ResolvedType) :
    (s.restrict keep).elementOf? (t.restrict keep) = (s.elementOf? t).map (·.restrict keep) := by
  have element : (t.restrict keep).element = t.element := rfl
  unfold elementOf?
  rw [s.indexer?_restrict trusts, element]
  cases t.element with
  | some element => exact s.resolve?_restrict _
  | none =>
    cases s.indexer? t with
    | some found => exact s.typeOf?_restrict found
    | none =>
      show t.arguments.getLast?.bind (fun last => (s.restrict keep).resolve? last.text) =
        (t.arguments.getLast?.bind fun last => s.resolve? last.text).map (·.restrict keep)
      cases t.arguments.getLast? with
      | none => rfl
      | some last =>
        rw [Option.bind_some, Option.bind_some]
        exact s.resolve?_restrict last.text

theorem applyIndex?_restrict (depth : Nat) (t : ResolvedType) :
    (s.restrict keep).applyIndex? depth (t.restrict keep) = (s.applyIndex? depth t).map (·.restrict keep) := by
  induction depth generalizing t with
  | zero => rfl
  | succ depth ih =>
    simp only [applyIndex?, elementOf?_restrict trusts]
    cases s.elementOf? t with
    | none => rfl
    | some element => exact ih element

theorem extensionResult_restrict (receiver : ResolvedType) (m : MemberInfo) :
    (s.restrict keep).extensionResult (receiver.restrict keep) m = s.extensionResult receiver m := by
  unfold extensionResult
  rw [elementOf?_restrict trusts]
  cases s.elementOf? receiver <;> rfl

theorem enumerate_restrict (t : ResolvedType) (mode : BindingMode) :
    (s.restrict keep).enumerate (t.restrict keep) mode false = s.enumerate t mode false := by
  have extensions : (s.restrict keep).catalog.extensionItems (s.restrict keep).importedTypes (t.restrict keep) =
      s.catalog.extensionItems s.importedTypes t := by
    rw [importedTypes_restrict]
    exact s.catalog.extensionItems_restrict _ _ fun _ _ m _ isPublic => trusts.keepsPublic _ m isPublic
  have members : (s.restrict keep).catalog.reachableItems (t.restrict keep) mode false false =
      s.catalog.reachableItems t mode false false :=
    reachableItems_restrict_of_public trusts.keepsPublic s.catalog t mode
  unfold enumerate
  rw [extensions, members]

omit trusts in
theorem hop_restrict {t : ResolvedType} {seg : Segment} {mode : BindingMode} {nonPublic : Bool}
    (kept : ∀ f ∈ s.hopUses t seg mode nonPublic, f.isKept keep = true) :
    (s.restrict keep).hop (t.restrict keep) seg mode nonPublic = (s.hop t seg mode nonPublic).restrict keep := by
  have found? : (s.restrict keep).catalog.findMember? (t.restrict keep) seg.name mode nonPublic =
      (s.catalog.findMember? t seg.name mode nonPublic).map (·.restrict keep) := by
    refine s.catalog.findMember?_restrict fun f found => kept f ?_
    rw [hopUses, found]
    exact List.mem_cons_self
  unfold hop
  unfold hopUses at kept
  rw [found?]
  cases found : s.catalog.findMember? t seg.name mode nonPublic with
  | some f =>
    rw [found] at kept
    exact congrArg Hop.member (selectOverload_restrict (kept _ (List.mem_cons_of_mem f List.mem_cons_self)))
  | none =>
    rw [found] at kept
    show (if mode = .typeStatics then _ else _) = Hop.restrict keep (if mode = .typeStatics then _ else _)
    by_cases static : mode = .typeStatics
    · rw [if_pos static, if_pos static]
      have nested : (if seg.isPlain then
            (s.restrict keep).catalog.findType? ((t.restrict keep).fullName ++ "+" ++ seg.name) else none) =
          (if seg.isPlain then s.catalog.findType? (t.fullName ++ "+" ++ seg.name) else none).map
            (·.restrict keep) := by
        split
        · exact s.catalog.findType?_restrict _
        · rfl
      rw [nested]
      cases if seg.isPlain then s.catalog.findType? (t.fullName ++ "+" ++ seg.name) else none <;> rfl
    · simp only [if_neg static] at kept ⊢
      rw [importedTypes_restrict, findExtension?_restrict _ _ fun f found => kept f (by rw [found]; simp)]
      cases findExtension? s.importedTypes seg.name <;> rfl

theorem land_restrict (t : ResolvedType) (hop : Hop) :
    (s.restrict keep).land (t.restrict keep) (hop.restrict keep) =
      (s.land t hop).map fun (next, mode) => (next.restrict keep, mode) := by
  cases hop with
  | member found =>
    simp only [land, Hop.restrict, typeOf?_restrict]
    cases s.typeOf? found <;> rfl
  | nested info => rfl
  | extensionMethod found =>
    have result : (s.restrict keep).extensionResult (t.restrict keep) (found.restrict keep).member =
        s.extensionResult t found.member := extensionResult_restrict trusts t found.member
    simp only [land, Hop.restrict, result, resolve?_restrict]
    generalize s.resolve? _ = next
    cases next <;> rfl
  | missing => rfl

theorem step_restrict (t : ResolvedType) (seg : Segment) (hop : Hop) :
    (s.restrict keep).step (t.restrict keep) seg (hop.restrict keep) =
      (s.step t seg hop).map fun (next, mode) => (next.restrict keep, mode) := by
  unfold step
  rw [land_restrict trusts]
  cases s.land t hop with
  | none => rfl
  | some landed =>
    obtain ⟨next, mode⟩ := landed
    show Option.map _ ((s.restrict keep).applyIndex? seg.indexDepth (next.restrict keep)) =
      Option.map _ (Option.map _ (s.applyIndex? seg.indexDepth next))
    rw [applyIndex?_restrict trusts, Option.map_map, Option.map_map]
    rfl

/-- Segments that rest on members that stay lead to the same place without the others. -/
theorem follow_restrict {segments : List Segment} {t : ResolvedType} {mode : BindingMode} {nonPublic : Bool}
    (kept : ∀ f ∈ s.followUses t mode nonPublic segments, f.isKept keep = true) :
    (s.restrict keep).follow (t.restrict keep) mode nonPublic segments =
      (s.follow t mode nonPublic segments).restrict keep := by
  induction segments generalizing t mode nonPublic with
  | nil => exact Walk.ofType_restrict t
  | cons seg rest ih =>
    simp only [followUses, List.mem_append] at kept
    have hop := hop_restrict (s := s) fun f used => kept f (.inl used)
    unfold follow
    simp only [hop, Hop.isVoid_restrict, Hop.mayEnd_restrict]
    by_cases void : (s.hop t seg mode nonPublic).isVoid = true
    · rw [if_pos void, if_pos void]
      split <;> rfl
    · rw [if_neg void, if_neg void, step_restrict trusts]
      rw [if_neg void] at kept
      cases landed : s.step t seg (s.hop t seg mode nonPublic) with
      | none => rfl
      | some next =>
        rw [landed] at kept
        exact ih fun f used => kept f (.inr used)

theorem walk_restrict {head : ResolvedType} {segments : List Segment} {mode : BindingMode} {nonPublic : Bool}
    (kept : ∀ f ∈ s.walkUses head segments mode nonPublic, f.isKept keep = true) :
    (s.restrict keep).walk (head.restrict keep) segments mode nonPublic =
      (s.walk head segments mode nonPublic).restrict keep := by
  unfold walk
  unfold walkUses at kept
  rw [ResolvedType.isVoid_restrict]
  by_cases void : head.isVoid = true
  · rw [if_pos void, if_pos void]
    rfl
  · rw [if_neg void] at kept
    rw [if_neg void, if_neg void]
    exact follow_restrict trusts kept

/-- What stands at the end of a walk is listed by its public members, so a chain lists the same. -/
theorem complete_restrict {head : ResolvedType} {segments : List Segment} {mode : BindingMode}
    (kept : ∀ f ∈ s.walkUses head segments mode false, f.isKept keep = true) :
    (s.restrict keep).complete (head.restrict keep) segments mode false = s.complete head segments mode false := by
  have listed (last : ResolvedType) (mode : BindingMode) :
      (s.restrict keep).enumerate (last.restrict keep) mode (s.restrict keep).nonPublic =
        s.enumerate last mode s.nonPublic := by
    show (s.restrict keep).enumerate (last.restrict keep) mode s.nonPublic = _
    rw [trusts.publicOnly]
    exact enumerate_restrict trusts last mode
  unfold complete
  rw [walk_restrict trusts kept]
  cases s.walk head segments mode false with
  | failed => rfl
  | void => rfl
  | type last =>
    show Outcome.ofItems (if segments.isEmpty then _ else if endsInNestedType segments last then _ else _) = _
    rw [enumerate_restrict trusts, listed, listed]

end Scope

end Typeahead.Lookup
