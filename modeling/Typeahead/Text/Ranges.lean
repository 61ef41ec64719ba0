namespace Typeahead.Text

def inRanges (ranges : List (Nat × Nat)) (n : Nat) : Bool := ranges.any fun (low, high) => low ≤ n && n ≤ high

theorem inRanges_iff {ranges : List (Nat × Nat)} {n : Nat} :
    inRanges ranges n = true ↔ ∃ r ∈ ranges, r.1 ≤ n ∧ n ≤ r.2 := by
  simp [inRanges]

end Typeahead.Text
