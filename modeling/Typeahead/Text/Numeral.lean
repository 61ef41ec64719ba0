namespace Typeahead.Text

def hexDigit (n : Nat) : Char := if n < 10 then Char.ofNat (48 + n) else Char.ofNat (87 + n)

def hexValue? (c : Char) : Option Nat :=
  if c.isDigit then some (c.toNat - '0'.toNat)
  else if 'a' ≤ c ∧ c ≤ 'f' then some (c.toNat - 'a'.toNat + 10)
  else if 'A' ≤ c ∧ c ≤ 'F' then some (c.toNat - 'A'.toNat + 10)
  else none

/-- The number that digits of a base write; without digits it is zero. -/
def numberValue? (base : Nat) (cs : List Char) : Option Nat :=
  cs.foldlM (fun value c => ((hexValue? c).filter (· < base)).map (value * base + ·)) 0

end Typeahead.Text
