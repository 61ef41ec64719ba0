import Mathlib.Data.Set.Card
import Mathlib.Logic.Function.Iterate
import Mathlib.Logic.Relation
import Typeahead.Proofs.Source.Inheritable
import Typeahead.Source.Context

namespace Typeahead.Source

/-- A base list leads to the first declaration of the simple name that it writes. -/
def IsBase (text : List Char) (child parent : TypeRegion) : Prop :=
  ∃ written ∈ child.bases, typeNamed text (simpleBaseName written) = some parent

/-- What base lists lead to from a type, never through a declaration of the type's own name. -/
inductive IsAncestor (text : List Char) (region : TypeRegion) : TypeRegion → Prop
  | base {parent : TypeRegion} : IsBase text region parent → parent.name ≠ region.name → IsAncestor text region parent
  | next {child parent : TypeRegion} : IsAncestor text region child → IsBase text child parent →
      parent.name ≠ region.name → IsAncestor text region parent

theorem name_of_typeNamed {text : List Char} {name : String} {r : TypeRegion} (found : typeNamed text name = some r) :
    r.name = name := by
  obtain ⟨p, -, here⟩ := List.exists_of_findSome?_eq_some found
  obtain ⟨-, named⟩ := Option.filter_eq_some_iff.mp here
  exact beq_iff_eq.mp named

theorem IsBase.found {text : List Char} {child parent : TypeRegion} (isBase : IsBase text child parent) :
    typeNamed text parent.name = some parent := by
  obtain ⟨written, -, found⟩ := isBase
  rw [name_of_typeNamed found, found]

/-- A type that is found under its own name has for ancestors whatever base lists lead to from it, itself apart. -/
theorem isAncestor_iff_transGen {text : List Char} {region r : TypeRegion}
    (own : typeNamed text region.name = some region) :
    IsAncestor text region r ↔ Relation.TransGen (IsBase text) region r ∧ r.name ≠ region.name := by
  constructor
  · intro isAncestor
    induction isAncestor with
    | base isBase apart => exact ⟨.single isBase, apart⟩
    | next _ isBase apart ih => exact ⟨.tail ih.1 isBase, apart⟩
  · rintro ⟨path, apart⟩
    induction path with
    | single isBase => exact .base isBase apart
    | @tail child r path isBase ih =>
      by_cases back : child.name = region.name
      · obtain ⟨_, -, before⟩ := Relation.TransGen.tail'_iff.mp path
        have same : child = region := Option.some.inj (before.found.symm.trans (back.symm ▸ own))
        exact .base (same ▸ isBase) apart
      · exact .next (ih back) isBase apart

/-- The search for bases between two turns. -/
structure BaseSearch where
  budget : Nat
  seen : List String
  pending : List String
  found : List TypeRegion

namespace BaseSearch

def start (region : TypeRegion) : BaseSearch := ⟨maxBases, [region.name], region.bases.reverse, []⟩

def HasEnded (s : BaseSearch) : Prop := s.budget = 0 ∨ s.pending = []

/-- One turn: the name on top of the stack is passed over, or noted and followed. -/
def turn (text : List Char) : BaseSearch → BaseSearch
  | ⟨0, seen, pending, found⟩ => ⟨0, seen, pending, found⟩
  | ⟨budget + 1, seen, [], found⟩ => ⟨budget + 1, seen, [], found⟩
  | ⟨budget + 1, seen, base :: pending, found⟩ =>
    if seen.contains (simpleBaseName base) then ⟨budget + 1, seen, pending, found⟩
    else
      match typeNamed text (simpleBaseName base) with
      | none => ⟨budget + 1, simpleBaseName base :: seen, pending, found⟩
      | some region =>
        ⟨budget, simpleBaseName base :: seen, region.bases.reverse ++ pending, found ++ [region]⟩

/-- Turns that are left until no name is pending. -/
def left (text : List Char) (s : BaseSearch) : Nat :=
  s.pending.length + ((baseRegions text s.budget s.seen s.pending).map (·.bases.length)).sum

/-- What has been found and what is still to be found. -/
def regions (text : List Char) (s : BaseSearch) : List TypeRegion :=
  s.found ++ baseRegions text s.budget s.seen s.pending

variable {text : List Char}

/-- A turn of a search that has not ended brings its end nearer and changes nothing of what it finds. -/
theorem turn_spec (text : List Char) (s : BaseSearch) :
    s.HasEnded ∧ s.turn text = s ∨ (s.turn text).left text + 1 = s.left text ∧
      (s.turn text).regions text = s.regions text := by
  obtain ⟨budget, seen, pending, found⟩ := s
  cases budget with
  | zero => exact .inl ⟨.inl rfl, rfl⟩
  | succ budget =>
    cases pending with
    | nil => exact .inl ⟨.inr rfl, rfl⟩
    | cons base pending =>
      refine .inr ?_
      unfold turn left regions
      rw [baseRegions]
      by_cases known : seen.contains (simpleBaseName base) = true
      · simp only [if_pos known, List.length_cons, and_true]
        omega
      · simp only [if_neg known]
        cases typeNamed text (simpleBaseName base) with
        | none =>
          simp only [List.length_cons, and_true]
          omega
        | some region =>
          simp only [List.length_append, List.length_reverse, List.length_cons, List.map_cons, List.sum_cons,
            List.append_assoc, List.singleton_append, and_true]
          omega

theorem regions_of_hasEnded {s : BaseSearch} (ended : s.HasEnded) : s.regions text = s.found := by
  obtain ⟨budget, seen, pending, found⟩ := s
  obtain rfl | rfl := ended
  · simp [regions, baseRegions]
  · cases budget <;> simp [regions, baseRegions]

theorem regions_iterate_turn (turns : Nat) (s : BaseSearch) :
    ((turn text)^[turns] s).regions text = s.regions text := by
  induction turns generalizing s with
  | zero => rfl
  | succ turns ih =>
    rw [Function.iterate_succ_apply, ih]
    rcases turn_spec text s with ⟨-, same⟩ | ⟨-, same⟩
    · rw [same]
    · exact same

theorem hasEnded_iterate_turn {turns : Nat} {s : BaseSearch} (enough : s.left text ≤ turns) :
    ((turn text)^[turns] s).HasEnded := by
  induction turns generalizing s with
  | zero =>
    have none : s.pending.length = 0 := by unfold left at enough; omega
    exact .inr (List.length_eq_zero_iff.mp none)
  | succ turns ih =>
    rw [Function.iterate_succ_apply]
    rcases turn_spec text s with ⟨ended, same⟩ | ⟨nearer, -⟩
    · rwa [same, Function.iterate_fixed same]
    · exact ih (by omega)

/-- A search that has ended has found the regions that a type inherits from. -/
theorem found_of_hasEnded {turns : Nat} {region : TypeRegion}
    (ended : ((turn text)^[turns] (start region)).HasEnded) :
    ((turn text)^[turns] (start region)).found = inheritedRegions text region := by
  rw [← regions_of_hasEnded ended, regions_iterate_turn]
  rfl

end BaseSearch

section Search

variable {text : List Char} {budget : Nat} {seen pending : List String} {r : TypeRegion}

theorem length_baseRegions_le : (baseRegions text budget seen pending).length ≤ budget := by
  fun_induction baseRegions text budget seen pending with
  | case1 | case2 => simp
  | case3 _ _ _ _ _ _ ih | case4 _ _ _ _ _ _ _ ih => exact ih
  | case5 _ _ _ _ _ _ _ _ ih => exact Nat.succ_le_succ ih

/-- Every name that the search follows is new and leads to what is found under it. -/
theorem fresh_baseRegions (member : r ∈ baseRegions text budget seen pending) :
    r.name ∉ seen ∧ typeNamed text r.name = some r := by
  fun_induction baseRegions text budget seen pending with
  | case1 | case2 => simp at member
  | case3 _ _ _ _ _ _ ih => exact ih member
  | case4 _ _ _ _ _ _ _ ih =>
    obtain ⟨new, found⟩ := ih member
    exact ⟨fun old => new (List.mem_cons_of_mem _ old), found⟩
  | case5 budget seen base pending name unseen region found ih =>
    rcases List.mem_cons.mp member with rfl | later
    · rw [name_of_typeNamed found]
      exact ⟨fun old => unseen (List.contains_iff_mem.mpr old), found⟩
    · obtain ⟨new, found⟩ := ih later
      exact ⟨fun old => new (List.mem_cons_of_mem _ old), found⟩

theorem nodup_names_baseRegions : ((baseRegions text budget seen pending).map (·.name)).Nodup := by
  fun_induction baseRegions text budget seen pending with
  | case1 | case2 => simp
  | case3 _ _ _ _ _ _ ih | case4 _ _ _ _ _ _ _ ih => exact ih
  | case5 budget seen base pending name unseen region found ih =>
    refine List.nodup_cons.mpr ⟨fun again => ?_, ih⟩
    obtain ⟨other, member, same⟩ := List.mem_map.mp again
    obtain ⟨new, -⟩ := fresh_baseRegions member
    exact new (List.mem_cons.mpr (.inl (same.trans (name_of_typeNamed found))))

/-- What the search finds is an ancestor if the pending names are written by the type or by ancestors of it. -/
theorem isAncestor_of_mem_baseRegions {region : TypeRegion} (own : region.name ∈ seen)
    (written : ∀ base ∈ pending, base ∈ region.bases ∨ ∃ child, IsAncestor text region child ∧ base ∈ child.bases)
    (member : r ∈ baseRegions text budget seen pending) : IsAncestor text region r := by
  fun_induction baseRegions text budget seen pending with
  | case1 | case2 => simp at member
  | case3 budget seen base pending name _ ih =>
    exact ih own (fun other listed => written other (List.mem_cons_of_mem _ listed)) member
  | case4 budget seen base pending name _ _ ih =>
    exact ih (List.mem_cons_of_mem _ own) (fun other listed => written other (List.mem_cons_of_mem _ listed)) member
  | case5 budget seen base pending name unseen parent found ih =>
    have apart : parent.name ≠ region.name := fun same =>
      unseen (List.contains_iff_mem.mpr (name_of_typeNamed found ▸ same ▸ own))
    have isAncestor : IsAncestor text region parent := by
      rcases written base List.mem_cons_self with listed | ⟨child, isAncestor, listed⟩
      · exact .base ⟨base, listed, found⟩ apart
      · exact .next isAncestor ⟨base, listed, found⟩ apart
    rcases List.mem_cons.mp member with rfl | later
    · exact isAncestor
    · refine ih (List.mem_cons_of_mem _ own) (fun other listed => ?_) later
      rcases List.mem_append.mp listed with among | listed
      · exact .inr ⟨parent, isAncestor, List.mem_reverse.mp among⟩
      · exact written other (List.mem_cons_of_mem _ listed)

/-- A search that stays below its budget finds all that the pending names and the base lists it comes to lead to,
but for names seen before. -/
theorem baseRegions_closed {base : String} {parent : TypeRegion}
    (short : (baseRegions text budget seen pending).length < budget)
    (written : base ∈ pending ∨ ∃ child ∈ baseRegions text budget seen pending, base ∈ child.bases)
    (found : typeNamed text (simpleBaseName base) = some parent) :
    parent.name ∈ seen ∨ parent ∈ baseRegions text budget seen pending := by
  fun_induction baseRegions text budget seen pending with
  | case1 => simp at short
  | case2 => simp at written
  | case3 budget seen first pending name known ih =>
    rcases written with listed | later
    · rcases List.mem_cons.mp listed with rfl | listed
      · exact .inl (name_of_typeNamed found ▸ List.contains_iff_mem.mp known)
      · exact ih short (.inl listed)
    · exact ih short (.inr later)
  | case4 budget seen first pending name _ missing ih =>
    have later : parent.name ∈ name :: seen ∨ parent ∈ baseRegions text (budget + 1) (name :: seen) pending := by
      rcases written with listed | later
      · rcases List.mem_cons.mp listed with rfl | listed
        · exact absurd (missing.symm.trans found) nofun
        · exact ih short (.inl listed)
      · exact ih short (.inr later)
    rcases later with known | found'
    · rcases List.mem_cons.mp known with same | known
      · rw [← name_of_typeNamed found, same] at found
        exact absurd (missing.symm.trans found) nofun
      · exact .inl known
    · exact .inr found'
  | case5 budget seen first pending name _ region isFound ih =>
    have same (named : parent.name = name) : parent = region := by
      rw [← name_of_typeNamed found, named] at found
      exact Option.some.inj (found.symm.trans isFound)
    have later : parent.name = name ∨ parent.name ∈ name :: seen ∨
        parent ∈ baseRegions text budget (name :: seen) (region.bases.reverse ++ pending) := by
      have short := Nat.lt_of_succ_lt_succ short
      rcases written with listed | ⟨child, among, listed⟩
      · rcases List.mem_cons.mp listed with rfl | listed
        · exact .inl (name_of_typeNamed found)
        · exact .inr (ih short (.inl (List.mem_append_right _ listed)))
      · rcases List.mem_cons.mp among with rfl | among
        · exact .inr (ih short (.inl (List.mem_append_left _ (List.mem_reverse.mpr listed))))
        · exact .inr (ih short (.inr ⟨child, among, listed⟩))
    rcases later with named | known | found'
    · exact .inr (same named ▸ List.mem_cons_self)
    · rcases List.mem_cons.mp known with named | known
      · exact .inr (same named ▸ List.mem_cons_self)
      · exact .inl known
    · exact .inr (List.mem_cons_of_mem _ found')

end Search

theorem isAncestor_of_mem_inheritedRegions {text : List Char} {region r : TypeRegion}
    (member : r ∈ inheritedRegions text region) : IsAncestor text region r :=
  isAncestor_of_mem_baseRegions List.mem_cons_self (fun _ listed => .inl (List.mem_reverse.mp listed)) member

/-- Below the bound on their number no ancestor is missed. -/
theorem mem_inheritedRegions_of_isAncestor {text : List Char} {region r : TypeRegion}
    (short : (inheritedRegions text region).length < maxBases) (isAncestor : IsAncestor text region r) :
    r ∈ inheritedRegions text region := by
  induction isAncestor with
  | base isBase apart =>
    obtain ⟨written, listed, found⟩ := isBase
    exact (baseRegions_closed short (.inl (List.mem_reverse.mpr listed)) found).resolve_left
      fun same => apart (List.mem_singleton.mp same)
  | next _ isBase apart among =>
    obtain ⟨written, listed, found⟩ := isBase
    exact (baseRegions_closed short (.inr ⟨_, among, listed⟩) found).resolve_left
      fun same => apart (List.mem_singleton.mp same)

/-- The search finds every ancestor exactly if there are not more of them than it follows. -/
theorem forall_isAncestor_mem_iff (text : List Char) (region : TypeRegion) :
    (∀ r, IsAncestor text region r → r ∈ inheritedRegions text region) ↔
      Set.encard {r | IsAncestor text region r} ≤ maxBases := by
  have nodup : (inheritedRegions text region).Nodup := .of_map _ nodup_names_baseRegions
  have bounded : (inheritedRegions text region).length ≤ maxBases := length_baseRegions_le
  have size : Set.encard {r | r ∈ inheritedRegions text region} = (inheritedRegions text region).length := by
    rw [← List.coe_toFinset, Set.encard_coe_eq_coe_finsetCard, List.toFinset_card_of_nodup nodup]
  constructor
  · intro complete
    calc Set.encard {r | IsAncestor text region r}
        ≤ Set.encard {r | r ∈ inheritedRegions text region} := Set.encard_le_encard complete
      _ = (inheritedRegions text region).length := size
      _ ≤ maxBases := by exact_mod_cast bounded
  · intro few
    rcases bounded.lt_or_eq with short | full
    · exact fun r => mem_inheritedRegions_of_isAncestor short
    · rw [full] at size
      have same : {r | r ∈ inheritedRegions text region} = {r | IsAncestor text region r} :=
        Set.Finite.eq_of_subset_of_encard_le (List.finite_toSet _) (fun r => isAncestor_of_mem_inheritedRegions)
          (size ▸ few)
      exact fun r isAncestor => same.symm.subset isAncestor

/-- The bases of a type in its own text, for every text and every region. The search for them ends, after at most as
many turns as the base lists that it comes to have names; it finds at most eight regions, one for each name and none
of the type's own name, all of them ancestors and the first of their names in the text, and it finds every ancestor
if there are not more than eight. What is inherited is what these regions pass on, one after the other, the
variables as fields that hold in the body of the type. -/
theorem inheritedRegions_closure (text : List Char) (region : TypeRegion) :
    (∀ turns, region.bases.length + ((inheritedRegions text region).map (·.bases.length)).sum ≤ turns →
        ((BaseSearch.turn text)^[turns] (.start region)).HasEnded ∧
          ((BaseSearch.turn text)^[turns] (.start region)).found = inheritedRegions text region) ∧
      (inheritedRegions text region).length ≤ 8 ∧
      ((inheritedRegions text region).map (·.name)).Nodup ∧
      (∀ r ∈ inheritedRegions text region,
        IsAncestor text region r ∧ r.name ≠ region.name ∧ typeNamed text r.name = some r) ∧
      ((∀ r, IsAncestor text region r → r ∈ inheritedRegions text region) ↔
        Set.encard {r | IsAncestor text region r} ≤ 8) ∧
      (inheritedDeclarations text region).vars = (inheritedRegions text region).flatMap (fun r =>
        (Declarations.ofType text r).inheritable.vars.map fun v =>
          { v with span := Span.of region.bodyStart region.stop }) ∧
      (inheritedDeclarations text region).methods =
        (inheritedRegions text region).flatMap (fun r => (Declarations.ofType text r).inheritable.methods) ∧
      (inheritedDeclarations text region).properties =
        (inheritedRegions text region).flatMap (fun r => (Declarations.ofType text r).inheritable.properties) ∧
      ∀ v ∈ (inheritedDeclarations text region).vars,
        v.kind = .field ∧ v.span = Span.of region.bodyStart region.stop := by
  have bounded : (inheritedRegions text region).length ≤ 8 := length_baseRegions_le
  have names : ((inheritedRegions text region).map (·.name)).Nodup := nodup_names_baseRegions
  have vars : (inheritedDeclarations text region).vars = _ :=
    part_inheritedDeclarations Declarations.vars rfl Declarations.vars_append
  refine ⟨fun turns enough => ?_, bounded, names, fun r member => ?_, ?_, vars,
    part_inheritedDeclarations Declarations.methods rfl Declarations.methods_append,
    part_inheritedDeclarations Declarations.properties rfl Declarations.properties_append, fun v inherited => ?_⟩
  · have ended : ((BaseSearch.turn text)^[turns] (.start region)).HasEnded :=
      BaseSearch.hasEnded_iterate_turn (by simpa [BaseSearch.left, BaseSearch.start, inheritedRegions] using enough)
    exact ⟨ended, BaseSearch.found_of_hasEnded ended⟩
  · obtain ⟨other, found⟩ := fresh_baseRegions member
    exact ⟨isAncestor_of_mem_inheritedRegions member, fun same => other (List.mem_singleton.mpr same), found⟩
  · exact forall_isAncestor_mem_iff text region
  · rw [vars] at inherited
    obtain ⟨r, -, among⟩ := List.mem_flatMap.mp inherited
    obtain ⟨u, kept, rfl⟩ := List.mem_map.mp among
    have isField : u.kind = .field := Declarations.kind_of_mem_inheritable kept
    exact ⟨isField, rfl⟩

/-- A type that names itself and two bases that name each other, one of them twice. -/
def circleText : List Char :=
  ("class A:B,N.C<int>,A\x7bpublic void M()\x7b\x7d\x7d" ++
    "class B:C,A\x7bpublic int x;int y;\x7dclass C:B\x7bprotected void F()\x7b\x7d\x7d").toList

def circleRegion : TypeRegion :=
  { start := 0, bodyStart := 21, stop := 38, name := "A", bases := ["B", "N.C<int>", "A"], isStatic := false }

theorem inheritedRegions_closure_circle :
    enclosingType circleText 21 = some circleRegion ∧
      (inheritedRegions circleText circleRegion).map (·.name) = ["C", "B"] ∧
      ((BaseSearch.turn circleText)^[6] (.start circleRegion)).HasEnded ∧
      Set.encard {r | IsAncestor circleText circleRegion r} ≤ 8 ∧
      (inheritedDeclarations circleText circleRegion).vars = [⟨"x", "int", ⟨21, 38⟩, false, .field, none⟩] ∧
      (inheritedDeclarations circleText circleRegion).methods.map (·.name) = ["F"] := by
  have ended : ((BaseSearch.turn circleText)^[6] (.start circleRegion)).HasEnded := .inr (by decide +kernel)
  have scanned : inheritedRegions circleText circleRegion =
      [⟨71, 81, 101, "C", ["B"], false⟩, ⟨39, 51, 70, "B", ["C", "A"], false⟩] := by
    rw [← BaseSearch.found_of_hasEnded ended]
    decide +kernel
  obtain ⟨-, -, -, -, complete, vars, methods, -⟩ := inheritedRegions_closure circleText circleRegion
  rw [scanned] at vars methods
  refine ⟨by decide +kernel, by rw [scanned]; rfl, ended, complete.mp fun r => ?_, ?_, ?_⟩
  · exact mem_inheritedRegions_of_isAncestor (by rw [scanned]; decide)
  · rw [vars]
    decide +kernel
  · rw [methods]
    decide +kernel

end Typeahead.Source
