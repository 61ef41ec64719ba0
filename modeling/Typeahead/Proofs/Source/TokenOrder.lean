import Typeahead.Source.Token

namespace Typeahead.Source

open Text

theorem utf8Length_takeWhile_add_dropWhile (p : Char → Bool) (cs : List Char) :
    utf8Length (cs.takeWhile p) + utf8Length (cs.dropWhile p) = utf8Length cs := by
  rw [← utf8Length_append, List.takeWhile_append_dropWhile]

theorem start_of_mem_tokensFrom {offset : Nat} {cs : List Char} :
    ∀ t ∈ tokensFrom offset cs, offset ≤ t.start ∧ t.start < offset + utf8Length cs := by
  fun_induction tokensFrom offset cs with
  | case1 => simp
  | case2 offset c cs _ ih | case4 offset c cs _ _ _ ih =>
    intro t found
    have := ih t found
    rw [utf8Length_cons]
    omega
  | case3 offset c cs _ _ more ih =>
    intro t found
    have size := c.utf8Size_pos
    have whole : utf8Length more + utf8Length (cs.dropWhile isIdentifierChar) = utf8Length cs :=
      utf8Length_takeWhile_add_dropWhile isIdentifierChar cs
    rw [utf8Length_cons] at ih ⊢
    rcases List.mem_cons.mp found with rfl | later
    · exact ⟨Nat.le_refl _, by simp only; omega⟩
    · have := ih t later
      omega
  | case5 offset c cs _ _ _ ih =>
    intro t found
    have size := c.utf8Size_pos
    rw [utf8Length_cons]
    rcases List.mem_cons.mp found with rfl | later
    · exact ⟨Nat.le_refl _, by simp only; omega⟩
    · have := ih t later
      omega

/-- Each token starts after the one before it. -/
theorem tokensFrom_sorted (offset : Nat) (cs : List Char) :
    (tokensFrom offset cs).Pairwise fun a b => a.start < b.start := by
  fun_induction tokensFrom offset cs with
  | case1 => exact .nil
  | case2 _ _ _ _ ih | case4 _ _ _ _ _ _ ih => exact ih
  | case3 offset c cs _ _ more ih =>
    have size := c.utf8Size_pos
    refine List.pairwise_cons.mpr ⟨fun t later => ?_, ih⟩
    have := (start_of_mem_tokensFrom t later).1
    rw [utf8Length_cons] at this
    simp only
    omega
  | case5 offset c cs _ _ _ ih =>
    have size := c.utf8Size_pos
    refine List.pairwise_cons.mpr ⟨fun t later => ?_, ih⟩
    have := (start_of_mem_tokensFrom t later).1
    simp only
    omega

/-- The tokens start one after the other, and none after `stop`. -/
def InOrder (stop : Nat) (ts : List Token) : Prop := (ts.map (·.start) ++ [stop]).Pairwise (· ≤ ·)

variable {stop : Nat} {ts more : List Token} {t : Token}

theorem InOrder.left (order : InOrder stop (ts ++ more)) : InOrder stop ts := by
  refine List.Pairwise.sublist ?_ order
  rw [List.map_append, List.append_assoc]
  exact (List.sublist_append_right _ _).append_left _

theorem InOrder.right (order : InOrder stop (ts ++ more)) : InOrder stop more := by
  refine List.Pairwise.sublist ?_ order
  rw [List.map_append, List.append_assoc]
  exact List.sublist_append_right _ _

/-- The tokens before one token are in order up to it. -/
theorem InOrder.before (order : InOrder stop (ts ++ t :: more)) : InOrder t.start ts := by
  refine List.Pairwise.sublist ?_ order
  rw [List.map_append, List.map_cons, List.append_assoc]
  exact List.Sublist.append_left (.cons_cons _ (List.nil_sublist _)) _

theorem InOrder.start_le (order : InOrder stop ts) (inside : t ∈ ts) : t.start ≤ stop :=
  (List.pairwise_append.mp order).2.2 t.start (List.mem_map_of_mem inside) stop (List.mem_singleton_self stop)

theorem inOrder_tokensFrom {offset : Nat} {code : List Char} (within : offset + utf8Length code ≤ stop) :
    InOrder stop (tokensFrom offset code) := by
  refine List.pairwise_append.mpr ⟨?_, List.pairwise_singleton _ _, ?_⟩
  · exact List.pairwise_map.mpr ((tokensFrom_sorted offset code).imp Nat.le_of_lt)
  · intro first isStart last isStop
    obtain ⟨t, inside, rfl⟩ := List.mem_map.mp isStart
    obtain rfl := List.mem_singleton.mp isStop
    have := (start_of_mem_tokensFrom t inside).2
    omega

end Typeahead.Source
