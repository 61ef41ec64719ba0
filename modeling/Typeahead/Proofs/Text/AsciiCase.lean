import Typeahead.Text.BaseLetter
import Typeahead.Text.CaseFold

namespace Typeahead.Text

theorem forall_ascii {p : Char → Prop} (holds : ∀ n < 128, p (Char.ofNat n)) (c : Char) (ascii : c.toNat < 128) :
    p c := by
  have here := holds c.toNat ascii
  rwa [Char.ofNat_toNat] at here

theorem toLower_cases (c : Char) :
    c.toLower = c ∨ ∃ n < 26, c = Char.ofNat (n + 65) ∧ c.toLower = Char.ofNat (n + 97) := by
  have lower : ∀ n < 26, (Char.ofNat (n + 65)).toLower = Char.ofNat (n + 97) := by decide
  by_cases upper : c.val ≥ 'A'.val ∧ c.val ≤ 'Z'.val
  · have atLeast : 65 ≤ c.toNat := UInt32.le_iff_toNat_le.mp upper.1
    have atMost : c.toNat ≤ 90 := UInt32.le_iff_toNat_le.mp upper.2
    have isLetter : c = Char.ofNat (c.toNat - 65 + 65) := by rw [Nat.sub_add_cancel atLeast, Char.ofNat_toNat]
    refine .inr ⟨c.toNat - 65, by omega, isLetter, ?_⟩
    rw [← lower _ (by omega), ← isLetter]
  · exact .inl (dif_neg upper)

@[simp] theorem toLower_toLower (c : Char) : c.toLower.toLower = c.toLower := by
  have letters : ∀ n < 26, (Char.ofNat (n + 97)).toLower = Char.ofNat (n + 97) := by decide
  rcases toLower_cases c with itself | ⟨n, small, -, lower⟩
  · rw [itself, itself]
  · rw [lower, letters n small]

/-- Only a letter has two cases. -/
theorem eq_of_toLower_eq {c mark : Char} (same : c.toLower = mark) (noLetter : mark.isAlpha = false) : c = mark := by
  have letters : ∀ n < 26, (Char.ofNat (n + 97)).isAlpha = true := by decide
  rcases toLower_cases c with itself | ⟨n, small, -, lower⟩
  · rw [← same, itself]
  · rw [← same, lower, letters n small] at noLetter
    exact Bool.noConfusion noLetter

/-- The function has the same value for both cases of a letter of ASCII. -/
def IgnoresCase {α : Type} (f : Char → α) : Prop := ∀ c : Char, f c.toLower = f c

theorem ignoresCase {α : Type} {f : Char → α}
    (letters : ∀ n < 26, f (Char.ofNat (n + 97)) = f (Char.ofNat (n + 65))) : IgnoresCase f := by
  intro c
  rcases toLower_cases c with itself | ⟨n, small, upper, lower⟩
  · rw [itself]
  · rw [lower, upper, letters n small]

theorem IgnoresCase.map_eq {α : Type} {f : Char → α} (ignores : IgnoresCase f) {a b : List Char}
    (same : a.map Char.toLower = b.map Char.toLower) : a.map f = b.map f := by
  have lower (cs : List Char) : cs.map f = (cs.map Char.toLower).map f := by
    rw [List.map_map]
    exact List.map_congr_left fun c _ => (ignores c).symm
  rw [lower a, lower b, same]

/-- On ASCII folding is lowering: the capital letters are the first run, and no other run begins in ASCII. -/
theorem foldCase_ascii {c : Char} (ascii : c.toNat < 128) : foldCase c = c.toLower := by
  have beyond : ∀ run ∈ foldRuns.tail, 128 ≤ run.1 := by decide +kernel
  have whole : foldRuns = (0x41, 0x5a, 1, 0x61) :: foldRuns.tail := rfl
  have others {p : Nat × Nat × Nat × Nat → Bool} (inside : ∀ run, p run = true → run.1 ≤ c.toNat) :
      foldRuns.tail.find? p = none := by
    refine List.find?_eq_none.mpr fun run member holds => ?_
    have := beyond run member
    have := inside run holds
    omega
  have letters : ∀ n < 26, (Char.ofNat (n + 65)).toNat = n + 65 ∧
      (Char.ofNat (n + 65)).toLower = Char.ofNat (0x61 + n) := by decide
  unfold foldCase
  simp only
  rw [whole, List.find?_cons, others fun run holds => by simp at holds; exact holds.1.1]
  by_cases capital : 0x41 ≤ c.toNat ∧ c.toNat ≤ 0x5a
  · have lower := (letters (c.toNat - 65) (by omega)).2
    rw [Nat.sub_add_cancel capital.1, Char.ofNat_toNat] at lower
    simp [capital, Nat.mod_one, lower]
  · have other : (decide (0x41 ≤ c.toNat) && decide (c.toNat ≤ 0x5a) && (c.toNat - 0x41) % 1 == 0) = false := by
      rw [← Bool.decide_and, decide_eq_false capital, Bool.false_and]
    rw [other]
    rcases toLower_cases c with itself | ⟨n, small, upper, -⟩
    · exact itself.symm
    · have value := (letters n small).1
      rw [← upper] at value
      omega

theorem baseLetter_ascii {c : Char} (ascii : c.toNat < 128) : baseLetter c = c := by
  rw [baseLetter]
  exact if_pos ascii

theorem foldCapital_ascii {c : Char} (ascii : c.toNat < 128) : foldCapital c = c.toLower := by
  have beyond : ∀ range ∈ smallFolded, 128 ≤ range.1 := by decide
  have plain : ¬ inRanges smallFolded c.toNat = true := by
    rw [inRanges_iff]
    rintro ⟨range, member, first, -⟩
    have := beyond range member
    omega
  rw [foldCapital, if_neg plain, foldCase_ascii ascii]

theorem ignoresCase_of_ascii {f : Char → Char} (folds : ∀ c : Char, c.toNat < 128 → f c = c.toLower) :
    IgnoresCase f := by
  refine ignoresCase fun n small => ?_
  have cases : ∀ n < 26, (Char.ofNat (n + 97)).toNat < 128 ∧ (Char.ofNat (n + 65)).toNat < 128 ∧
      (Char.ofNat (n + 97)).toLower = (Char.ofNat (n + 65)).toLower := by decide
  obtain ⟨lower, upper, same⟩ := cases n small
  rw [folds _ lower, folds _ upper, same]

end Typeahead.Text
