import Mathlib.Data.List.TakeWhile
import Typeahead.Text.Blank

namespace Typeahead

/-- The blanks by their code points. -/
def blankCodes : List Nat := [
  0x09, 0x0a, 0x0b, 0x0c, 0x0d, 0x20, 0x85, 0xa0, 0x1680, 0x2000, 0x2001, 0x2002, 0x2003, 0x2004, 0x2005, 0x2006,
  0x2007, 0x2008, 0x2009, 0x200a, 0x2028, 0x2029, 0x202f, 0x205f, 0x3000]

namespace Text

theorem forall_blank {p : Char → Prop} (holds : ∀ n ∈ blankCodes, p (Char.ofNat n)) (c : Char)
    (blank : isBlank c = true) : p c := by
  have listed : c.toNat ∈ blankCodes := by
    simp only [isBlank, Bool.or_eq_true, Bool.and_eq_true, decide_eq_true_eq, beq_iff_eq] at blank
    simp only [blankCodes, List.mem_cons, List.not_mem_nil, or_false]
    omega
  have here := holds c.toNat listed
  rwa [Char.ofNat_toNat] at here

theorem trimEnd_append (a b : List Char) :
    trimEnd (a ++ b) = if trimEnd b = [] then trimEnd a else a ++ trimEnd b := by
  unfold trimEnd
  rw [List.reverse_append, List.dropWhile_append]
  by_cases blank : b.reverse.dropWhile isBlank = []
  · simp [blank]
  · simp [blank]

theorem trimEnd_concat (front : List Char) {c : Char} (word : isBlank c = false) :
    trimEnd (front ++ [c]) = front ++ [c] := by
  have last : trimEnd [c] = [c] := by simp [trimEnd, word]
  rw [trimEnd_append, last, if_neg (List.cons_ne_nil c [])]

theorem trimEnd_blanks {blanks : List Char} (blank : ∀ c ∈ blanks, isBlank c = true) : trimEnd blanks = [] := by
  have dropped : blanks.reverse.dropWhile isBlank = [] := by
    rw [List.dropWhile_eq_nil_iff]
    exact fun c member => blank c (List.mem_reverse.mp member)
  rw [trimEnd, dropped, List.reverse_nil]

theorem trimStart_append {blanks rest : List Char} (blank : ∀ c ∈ blanks, isBlank c = true) :
    trimStart (blanks ++ rest) = trimStart rest := List.dropWhile_append_of_pos blank

theorem trimStart_eq {cs : List Char} (first : ∀ c, cs.head? = some c → isBlank c = false) : trimStart cs = cs := by
  cases cs with
  | nil => rfl
  | cons c cs =>
    have blank : ¬ isBlank c = true := by simp [first c rfl]
    exact List.dropWhile_cons_of_neg blank

theorem trimEnd_eq {cs : List Char} (last : ∀ c, cs.getLast? = some c → isBlank c = false) : trimEnd cs = cs := by
  have stop : trimStart cs.reverse = cs.reverse :=
    trimStart_eq fun c first => last c (by rwa [List.head?_reverse] at first)
  rw [trimStart] at stop
  rw [trimEnd, stop, List.reverse_reverse]

theorem getLast?_trimEnd {cs : List Char} {c : Char} (last : (trimEnd cs).getLast? = some c) :
    isBlank c = false := by
  unfold trimEnd at last
  rw [List.getLast?_reverse] at last
  have stops := List.head?_dropWhile_not isBlank cs.reverse
  rw [last] at stops
  simpa using stops

theorem prefix_trimEnd (cs : List Char) : trimEnd cs <+: cs := by
  have := List.reverse_prefix.mpr (List.dropWhile_suffix (l := cs.reverse) isBlank)
  rwa [List.reverse_reverse] at this

theorem trim_subset (cs : List Char) : trim cs ⊆ cs :=
  fun _ member => (List.dropWhile_sublist isBlank).subset ((prefix_trimEnd _).subset member)

/-- Trimming loses nothing but blanks. -/
theorem mem_trimStart_iff {cs : List Char} {c : Char} (dark : isBlank c = false) : c ∈ trimStart cs ↔ c ∈ cs := by
  have split : cs.takeWhile isBlank ++ trimStart cs = cs := List.takeWhile_append_dropWhile
  constructor
  · exact fun member => (List.dropWhile_sublist isBlank).subset member
  · intro member
    rw [← split] at member
    refine (List.mem_append.mp member).resolve_left fun front => ?_
    have blank := List.all_eq_true.mp List.all_takeWhile c front
    simp [dark] at blank

theorem mem_trim_iff {cs : List Char} {c : Char} (dark : isBlank c = false) : c ∈ trim cs ↔ c ∈ cs := by
  have ends : c ∈ trim cs ↔ c ∈ trimStart (trimStart cs).reverse := List.mem_reverse
  rw [ends, mem_trimStart_iff dark, List.mem_reverse, mem_trimStart_iff dark]

end Text

end Typeahead
