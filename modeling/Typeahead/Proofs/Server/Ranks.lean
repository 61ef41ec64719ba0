import Mathlib.Algebra.Group.Nat.Defs
import Typeahead.Server.CompletionList

namespace Typeahead.Server

/-- The last `k` digits of a number, zeros in front. -/
def lastDigits : Nat → Nat → List Char
  | 0, _ => []
  | k + 1, n => lastDigits k (n / 10) ++ [Nat.digitChar (n % 10)]

@[simp] theorem length_lastDigits (k n : Nat) : (lastDigits k n).length = k := by
  induction k generalizing n with
  | zero => rfl
  | succ k ih => simp [lastDigits, ih]

theorem digitChar_lt {a b : Nat} (small : b < 10) (lt : a < b) : Nat.digitChar a < Nat.digitChar b := by
  have all : ∀ b < 10, ∀ a < b, Nat.digitChar a < Nat.digitChar b := by decide
  exact all b small a lt

theorem append_lt_append {a b : List Char} (same : a.length = b.length) (lt : a < b) (x y : List Char) :
    a ++ x < b ++ y := by
  induction a generalizing b with
  | nil =>
    cases b with
    | nil => exact absurd lt (List.lt_irrefl [])
    | cons d b => simp at same
  | cons c a ih =>
    cases b with
    | nil => simp at same
    | cons d b =>
      rw [List.cons_append, List.cons_append, List.cons_lt_cons_iff]
      rcases List.cons_lt_cons_iff.mp lt with first | ⟨rfl, later⟩
      · exact .inl first
      · exact .inr ⟨rfl, ih (by simpa using same) later⟩

theorem lastDigits_lt {k a b : Nat} (small : b < 10 ^ k) (lt : a < b) : lastDigits k a < lastDigits k b := by
  induction k generalizing a b with
  | zero => omega
  | succ k ih =>
    rw [lastDigits, lastDigits]
    have smaller : b / 10 < 10 ^ k := by
      rw [Nat.div_lt_iff_lt_mul (by decide)]
      rwa [← Nat.pow_succ]
    by_cases higher : a / 10 < b / 10
    · exact append_lt_append (by simp) (ih smaller higher) _ _
    · have same : a / 10 = b / 10 := by omega
      have last : a % 10 < b % 10 := by omega
      rw [same]
      apply List.append_left_lt
      rw [List.cons_lt_cons_iff]
      exact .inl (digitChar_lt (Nat.mod_lt b (by decide)) last)

theorem replicate_append_toDigits {k n : Nat} (small : n < 10 ^ (k + 1)) :
    List.replicate (k + 1 - (Nat.toDigits 10 n).length) '0' ++ Nat.toDigits 10 n = lastDigits (k + 1) n := by
  induction k generalizing n with
  | zero =>
    have digit : n < 10 := by simpa using small
    rw [Nat.toDigits_of_lt_base digit, lastDigits, lastDigits, Nat.mod_eq_of_lt digit]
    rfl
  | succ k ih =>
    rw [lastDigits]
    by_cases digit : n < 10
    · have zeros := ih (n := 0) (Nat.pow_pos (by decide))
      rw [Nat.toDigits_of_lt_base (by decide)] at zeros
      rw [Nat.toDigits_of_lt_base digit, Nat.mod_eq_of_lt digit, Nat.div_eq_of_lt digit, ← zeros]
      simp [List.replicate_succ']
    · have smaller : n / 10 < 10 ^ (k + 1) := by
        rw [Nat.div_lt_iff_lt_mul (by decide)]
        rwa [← Nat.pow_succ]
      rw [Nat.toDigits_of_base_le (by decide) (by omega), ← ih smaller, List.length_append, List.length_singleton,
        Nat.add_sub_add_right, List.append_assoc]

theorem toList_sortTextOf {rank : Nat} (small : rank < 100000) : (sortTextOf rank).toList = lastDigits 5 rank := by
  have digits : (toString rank).toList = Nat.toDigits 10 rank := by
    rw [Nat.toString_eq_repr, Nat.toList_repr]
  have padded := replicate_append_toDigits (k := 4) (n := rank) (by simpa using small)
  rw [sortTextOf, String.toList_append, String.toList_ofList, ← String.length_toList, digits]
  exact padded

theorem sortTextOf_lt {a b : Nat} (small : b < 100000) (lt : a < b) : sortTextOf a < sortTextOf b := by
  rw [String.lt_iff, toList_sortTextOf (Nat.lt_trans lt small), toList_sortTextOf small]
  exact lastDigits_lt (by simpa using small) lt

end Typeahead.Server
