import Typeahead.Proofs.Source.FlatTokens

namespace Typeahead.Source

variable {ts later : List Token} {text : String}

theorem closerFrom_suffix {kind : Bracket} {depth : Nat} (found : closerFrom kind depth ts = some later) :
    later <:+ ts := by
  induction ts generalizing depth with
  | nil => simp [closerFrom] at found
  | cons t ts ih =>
    have behind {depth : Nat} (found : closerFrom kind depth ts = some later) : later <:+ t :: ts :=
      (ih found).trans (List.suffix_cons t ts)
    simp only [closerFrom] at found
    split at found
    · exact behind found
    · split at found
      · split at found
        · simp only [Option.some.injEq] at found
          exact found ▸ List.suffix_rfl
        · exact behind found
      · exact behind found

theorem fromCloser_suffix (kind : Bracket) (ts : List Token) : fromCloser kind ts <:+ ts := by
  unfold fromCloser
  cases found : closerFrom kind 0 ts with
  | none => exact List.nil_suffix
  | some later => exact closerFrom_suffix found

theorem afterCloser_suffix (kind : Bracket) (ts : List Token) : afterCloser kind ts <:+ ts :=
  (List.drop_suffix 1 _).trans (fromCloser_suffix kind ts)

theorem insideGroup_subset (kind : Bracket) (ts : List Token) : insideGroup kind ts ⊆ ts :=
  (List.take_prefix _ ts).subset

theorem insideGroup_append (kind : Bracket) (ts : List Token) : insideGroup kind ts ++ fromCloser kind ts = ts := by
  have back := List.suffix_iff_eq_drop.mp (fromCloser_suffix kind ts)
  exact (congrArg (insideGroup kind ts ++ ·) back).trans (List.take_append_drop ..)

theorem readType?_suffix (read : readType? ts = some (text, later)) : later <:+ ts :=
  (flat_readType? read).suffix

theorem expressionEnd_suffix (ts : List Token) : expressionEnd ts <:+ ts := by
  fun_induction expressionEnd ts with
  | case1 => exact List.suffix_rfl
  | case2 t ts kind _ ih => exact ih.trans ((afterCloser_suffix kind ts).trans (List.suffix_cons t ts))
  | case3 => exact List.suffix_rfl
  | case4 t ts _ _ ih => exact ih.trans (List.suffix_cons t ts)

theorem dropWords_suffix (set : List String) (ts : List Token) : dropWords set ts <:+ ts :=
  (flat_dropWords set ts).suffix

theorem skipMember_suffix (ts : List Token) : skipMember ts <:+ ts := by
  fun_induction skipMember ts with
  | case1 => exact List.suffix_rfl
  | case2 t ts => exact (afterCloser_suffix .brace ts).trans (List.suffix_cons t ts)
  | case3 t ts kind _ _ ih => exact ih.trans ((afterCloser_suffix kind ts).trans (List.suffix_cons t ts))
  | case4 t ts => exact List.suffix_cons t ts
  | case5 t ts _ _ ih => exact ih.trans (List.suffix_cons t ts)

theorem afterComma_suffix (ts : List Token) : afterComma ts <:+ ts := by
  fun_induction afterComma ts with
  | case1 => exact List.suffix_rfl
  | case2 t ts kind _ ih => exact ih.trans ((afterCloser_suffix kind ts).trans (List.suffix_cons t ts))
  | case3 t ts => exact List.suffix_cons t ts
  | case4 t ts _ _ ih => exact ih.trans (List.suffix_cons t ts)

theorem fromBody_suffix (ts : List Token) : fromBody ts <:+ ts := by
  fun_induction fromBody ts with
  | case1 => exact List.suffix_rfl
  | case2 => exact List.suffix_rfl
  | case3 t ts _ _ ih => exact ih.trans ((afterCloser_suffix .paren ts).trans (List.suffix_cons t ts))
  | case4 t ts _ _ ih => exact ih.trans (List.suffix_cons t ts)

theorem methodBody_suffix (scan : Scan) (isStatic : Bool) (ts : List Token) :
    (methodBody scan isStatic ts).rest <:+ ts := by
  unfold methodBody
  split
  · exact List.suffix_rfl
  · next t ts =>
    split
    · exact (afterCloser_suffix .brace ts).trans (List.suffix_cons t ts)
    · split
      · exact skipMember_suffix (t :: ts)
      · exact List.suffix_cons t ts

theorem methodFrom_suffix (scan : Scan) (isStatic : Bool) (head : Option MethodHead) (ts : List Token) :
    (methodFrom scan isStatic head ts).2 <:+ ts :=
  (methodBody_suffix scan isStatic _).trans ((fromBody_suffix _).trans (afterCloser_suffix .paren ts))

theorem fieldsFrom_suffix (scope : FieldScope) (ts : List Token) : (fieldsFrom scope ts).2 <:+ ts := by
  fun_induction fieldsFrom scope ts with
  | case1 => exact List.suffix_rfl
  | case2 => exact List.suffix_rfl
  | case3 t ts name _ later _ fields rest read ih =>
    have behind : later <:+ ts := by
      simp only [later]
      split
      · exact (expressionEnd_suffix _).trans (List.drop_suffix 1 ts)
      · exact List.suffix_rfl
    rw [read] at ih
    exact ih.trans ((List.drop_suffix 1 later).trans (behind.trans (List.suffix_cons t ts)))
  | case4 t ts name _ later _ =>
    have behind : later <:+ ts := by
      simp only [later]
      split
      · exact (expressionEnd_suffix _).trans (List.drop_suffix 1 ts)
      · exact List.suffix_rfl
    exact behind.trans (List.suffix_cons t ts)

theorem dropTypeParameters_suffix (ts : List Token) : dropTypeParameters ts <:+ ts := by
  unfold dropTypeParameters
  split
  · exact (List.drop_suffix 1 _).trans (List.dropWhile_suffix _)
  · exact List.suffix_rfl

theorem namedMember_suffix {scope : BodyScope} {head : MemberHead} {name : String} {named skip : List Token}
    (inName : named <:+ ts) (inSkip : skip <:+ ts) : (namedMember scope head name named skip).2 <:+ ts := by
  have behind := (dropTypeParameters_suffix (named.drop 1)).trans (List.drop_suffix 1 named)
  unfold namedMember
  simp only
  split
  · exact inSkip
  · next t others split_ =>
    rw [split_] at behind
    have inside : others <:+ ts := (List.suffix_cons t others).trans (behind.trans inName)
    split
    · exact (methodFrom_suffix scope.scan head.isStatic _ others).trans inside
    · split
      · exact (afterCloser_suffix .brace others).trans inside
      · split
        · exact (skipMember_suffix _).trans (split_ ▸ behind.trans inName)
        · split
          · exact (skipMember_suffix _).trans ((fieldsFrom_suffix _ named).trans inName)
          · exact inSkip

theorem memberFrom_suffix (scope : BodyScope) (t : Token) (ts : List Token) :
    (memberFrom scope t ts).2 <:+ t :: ts := by
  have body := dropWords_suffix modifierWords (t :: ts)
  have skip := (skipMember_suffix (dropWords modifierWords (t :: ts))).trans body
  unfold memberFrom
  split
  · exact (afterCloser_suffix .square ts).trans (List.suffix_cons t ts)
  · split
    · exact List.suffix_cons t ts
    all_goals
      simp only
      split
      · exact skip
      · split
        · exact skip
        · next written named found =>
          have behind := (readType?_suffix found).trans body
          split
          · exact (methodFrom_suffix _ _ _ _).trans ((List.drop_suffix 1 named).trans behind)
          · split
            · exact skip
            · exact namedMember_suffix behind skip

end Typeahead.Source
