import Typeahead.Proofs.Text.Boundary
import Typeahead.Source.Region

namespace Typeahead.Source

open Text

/-- Two texts that are put together from parts of pairwise the same lengths: when every cut of a sort
inside a part of the one is a boundary of the other's part, so is every such cut of the one text. The
sort of a cut, `Fine`, may only look at what stands next to it. -/
theorem isBoundary_flatMap {α : Type} (src out : α → List Char) (Fine : List Char → List Char → Prop)
    (dropFront : ∀ front a b, Fine (front ++ a) b → Fine a b)
    (dropBack : ∀ a b back, Fine a (b ++ back) → Fine a b)
    (size : ∀ x, utf8Length (src x) = utf8Length (out x))
    (inner : ∀ x a b, src x = a ++ b → Fine a b → IsBoundary (utf8Length a) (out x))
    {xs : List α} {a b : List Char} (whole : xs.flatMap src = a ++ b) (fine : Fine a b) :
    IsBoundary (utf8Length a) (xs.flatMap out) := by
  induction xs generalizing a with
  | nil =>
    have empty : a = [] := by simpa using (List.append_eq_nil_iff.mp whole.symm).1
    subst empty
    exact isBoundary_zero _
  | cons x xs ih =>
    simp only [List.flatMap_cons] at whole ⊢
    rcases List.append_eq_append_iff.mp whole with ⟨later, rfl, rest⟩ | ⟨later, first, rfl⟩
    · have boundary := (ih rest (dropFront _ _ _ fine)).append_left (out x)
      rw [utf8Length_append, size]
      exact boundary
    · have boundary := inner x a later first (dropBack _ _ _ fine)
      exact boundary.append_right _

theorem isBoundary_blankChar {c : Char} {a b : List Char} (parts : [c] = a ++ b) :
    IsBoundary (utf8Length a) (blankChar c) := by
  rcases List.singleton_eq_append_iff.mp parts with ⟨rfl, -⟩ | ⟨rfl, -⟩
  · exact isBoundary_zero _
  · have all := isBoundary_utf8Length (blankChar c)
    rwa [utf8Length_blankChar, ← Nat.add_zero c.utf8Size, ← utf8Length_nil, ← utf8Length_cons] at all

theorem flatMap_singleton (cs : List Char) : cs.flatMap (fun c => [c]) = cs := by
  induction cs with
  | nil => rfl
  | cons c cs ih => simp only [List.flatMap_cons, ih, List.cons_append, List.nil_append]

theorem Piece.isBoundary_blanked {p : Piece} {a b : List Char} (parts : p.text = a ++ b) :
    IsBoundary (utf8Length a) p.blanked := by
  unfold Piece.blanked
  split
  · exact parts ▸ isBoundary_append a b
  · refine isBoundary_flatMap (fun c => [c]) _ (fun _ _ => True) (fun _ _ _ _ => trivial)
      (fun _ _ _ _ => trivial) (fun c => ?_) (fun c a b parts _ => isBoundary_blankChar parts) (b := b) ?_
      trivial
    · rw [utf8Length_blankChar, utf8Length_cons, utf8Length_nil, Nat.add_zero]
    · rw [flatMap_singleton, parts]

/-- A boundary of the source is a boundary of the blanked text. -/
theorem isBoundary_blank {n : Nat} {source : List Char} (boundary : IsBoundary n source) :
    IsBoundary n (blank source) := by
  obtain ⟨a, b, whole, rfl⟩ := boundary
  refine isBoundary_flatMap Piece.text _ (fun _ _ => True) (fun _ _ _ _ => trivial)
    (fun _ _ _ _ => trivial) (fun p => (Piece.utf8Length_blanked p).symm)
    (fun p a b parts _ => Piece.isBoundary_blanked parts) (b := b) ?_ trivial
  rw [flatMap_text_pieces, whole]

/-- Not both sides of a cut are spaces. -/
def BesideCode (a b : List Char) : Prop := ¬ (a.getLast? = some ' ' ∧ b.head? = some ' ')

theorem BesideCode.drop_front {front a b : List Char} (beside : BesideCode (front ++ a) b) :
    BesideCode a b := by
  rintro ⟨last, first⟩
  exact beside ⟨by rw [List.getLast?_append, last]; rfl, first⟩

theorem BesideCode.drop_back {a b back : List Char} (beside : BesideCode a (b ++ back)) : BesideCode a b := by
  rintro ⟨last, first⟩
  exact beside ⟨last, by rw [List.head?_append, first]; rfl⟩

/-- Inside what a character is blanked to there are spaces only. -/
theorem isBoundary_of_blankChar {c : Char} {a b : List Char} (parts : blankChar c = a ++ b)
    (beside : BesideCode a b) : IsBoundary (utf8Length a) [c] := by
  have length := congrArg utf8Length parts
  rw [utf8Length_blankChar, utf8Length_append] at length
  rcases List.eq_nil_or_concat a with rfl | ⟨front, last, rfl⟩
  · exact isBoundary_zero _
  · cases b with
    | nil =>
      have whole := isBoundary_utf8Length [c]
      rw [utf8Length_cons, utf8Length_nil] at whole
      rwa [length, utf8Length_nil] at whole
    | cons first back =>
      have spaces : ∀ x ∈ front.concat last ++ first :: back, x = ' ' := by
        unfold blankChar at parts
        split at parts
        · have count := congrArg List.length parts
          simp at count
          omega
        · intro x inside
          rw [← parts] at inside
          exact List.eq_of_mem_replicate inside
      refine absurd ⟨?_, ?_⟩ beside
      · simp [spaces last (by simp)]
      · simp [spaces first (by simp)]

theorem Piece.isBoundary_of_blanked {p : Piece} {a b : List Char} (parts : p.blanked = a ++ b)
    (beside : BesideCode a b) : IsBoundary (utf8Length a) p.text := by
  unfold Piece.blanked at parts
  split at parts
  · exact parts ▸ isBoundary_append a b
  · have boundary := isBoundary_flatMap _ (fun c => [c]) BesideCode
      (fun _ _ _ => BesideCode.drop_front) (fun _ _ _ => BesideCode.drop_back)
      (fun c => by rw [utf8Length_blankChar, utf8Length_cons, utf8Length_nil, Nat.add_zero])
      (fun c a b parts beside => isBoundary_of_blankChar parts beside) parts beside
    rwa [flatMap_singleton] at boundary

/-- A boundary of the blanked text that does not part two spaces is a boundary of the source. -/
theorem isBoundary_of_blank {source a b : List Char} (parts : blank source = a ++ b)
    (beside : BesideCode a b) : IsBoundary (utf8Length a) source := by
  have boundary := isBoundary_flatMap _ Piece.text BesideCode
    (fun _ _ _ => BesideCode.drop_front) (fun _ _ _ => BesideCode.drop_back) Piece.utf8Length_blanked
    (fun p a b parts beside => Piece.isBoundary_of_blanked parts beside) parts beside
  rwa [flatMap_text_pieces] at boundary

/-- A region is one of the pieces, at the place that the pieces before it leave for it. -/
theorem exists_piece_of_mem_regionsFrom {ps : List Piece} {offset : Nat} {r : Region}
    (member : r ∈ regionsFrom offset ps) :
    ∃ earlier p later, ps = earlier ++ p :: later ∧ p.kind = some r.kind ∧
      r.start = offset + utf8Length (earlier.flatMap Piece.text) ∧ r.stop = r.start + utf8Length p.text := by
  induction ps generalizing offset with
  | nil => simp [regionsFrom] at member
  | cons p ps ih =>
    have behind : r ∈ regionsFrom (offset + utf8Length p.text) ps →
        ∃ earlier q later, p :: ps = earlier ++ q :: later ∧ q.kind = some r.kind ∧
          r.start = offset + utf8Length (earlier.flatMap Piece.text) ∧ r.stop = r.start + utf8Length q.text := by
      intro member
      obtain ⟨earlier, q, later, rfl, kind, start, stop⟩ := ih member
      refine ⟨p :: earlier, q, later, rfl, kind, ?_, stop⟩
      rw [List.flatMap_cons, utf8Length_append]
      omega
    simp only [regionsFrom] at member
    split at member
    · next kind isKind =>
      rcases List.mem_cons.mp member with rfl | later
      · exact ⟨[], p, ps, rfl, isKind, rfl, rfl⟩
      · exact behind later
    · exact behind member

theorem kind_code (c : Char) : (code c).kind ≠ some .blockComment := by simp [code]

theorem kind_of_mem_literalPieces {quote : Char} {body rest : List Char} {p : Piece}
    (member : p ∈ (literalPieces quote body rest).1) : p.kind ≠ some .blockComment := by
  unfold literalPieces at member
  split at member
  · rw [List.mem_singleton.mp member]
    simp
  · split at member
    · rcases List.mem_cons.mp member with rfl | last
      · simp
      · rw [List.mem_singleton.mp last]
        simp [code]
    · rw [List.mem_singleton.mp member]
      simp

/-- The piece of a block comment begins with its opening delimiter. -/
theorem eq_cons_of_blockComment {source : List Char} {p : Piece} (member : p ∈ pieces source)
    (block : p.kind = some .blockComment) : ∃ body, p.text = '/' :: '*' :: body := by
  fun_induction pieces source with
  | case1 => simp at member
  | case2 rest ih =>
    rcases List.mem_cons.mp member with rfl | later
    · simp at block
    · exact ih later
  | case3 rest ih =>
    rcases List.mem_cons.mp member with rfl | later
    · exact ⟨_, rfl⟩
    · exact ih later
  | case4 rest read ih =>
    have front : ∀ q ∈ code '@' :: code '"' :: read.1, q.kind ≠ some .blockComment :=
      List.forall_mem_cons.mpr ⟨kind_code _, List.forall_mem_cons.mpr ⟨kind_code _,
        fun _ => kind_of_mem_literalPieces⟩⟩
    exact (List.mem_append.mp member).elim (fun here => absurd block (front p here)) ih
  | case5 rest read ih =>
    have front : ∀ q ∈ code '@' :: code '$' :: code '"' :: read.1, q.kind ≠ some .blockComment :=
      List.forall_mem_cons.mpr ⟨kind_code _, List.forall_mem_cons.mpr ⟨kind_code _,
        List.forall_mem_cons.mpr ⟨kind_code _, fun _ => kind_of_mem_literalPieces⟩⟩⟩
    exact (List.mem_append.mp member).elim (fun here => absurd block (front p here)) ih
  | case6 c rest _ _ _ _ _ read ih =>
    have front : ∀ q ∈ code c :: read.1, q.kind ≠ some .blockComment :=
      List.forall_mem_cons.mpr ⟨kind_code _, fun _ => kind_of_mem_literalPieces⟩
    exact (List.mem_append.mp member).elim (fun here => absurd block (front p here)) ih
  | case7 c rest _ _ _ _ _ ih =>
    rcases List.mem_cons.mp member with rfl | later
    · simp [code] at block
    · exact ih later

/-- A comment or literal can be taken out of its source, and at the same bounds out of the blanked text,
where nothing is left of it but its line breaks. -/
structure Region.Fits (source : List Char) (r : Region) : Prop where
  body : ∃ body, slice r.start r.stop source = .ok body ∧
    slice r.start r.stop (blank source) = .ok (body.flatMap blankChar)
  delimiter : r.kind = .blockComment → slice r.start (r.start + 2) source = .ok ['/', '*']

theorem utf8Length_flatMap_blanked (ps : List Piece) :
    utf8Length (ps.flatMap Piece.blanked) = utf8Length (ps.flatMap Piece.text) := by
  induction ps with
  | nil => rfl
  | cons p ps ih => simp only [List.flatMap_cons, utf8Length_append, ih, Piece.utf8Length_blanked]

theorem Region.fits_of_mem {source : List Char} {r : Region} (member : r ∈ regions source) :
    r.Fits source := by
  obtain ⟨earlier, p, later, split, kind, start, stop⟩ := exists_piece_of_mem_regionsFrom member
  have whole : source = earlier.flatMap Piece.text ++ p.text ++ later.flatMap Piece.text := by
    have all := flatMap_text_pieces source
    rw [split] at all
    simpa using all.symm
  have blanked : blank source =
      earlier.flatMap Piece.blanked ++ p.text.flatMap blankChar ++ later.flatMap Piece.blanked := by
    have own : p.blanked = p.text.flatMap blankChar := by simp [Piece.blanked, kind]
    simp only [blank, split, List.flatMap_append, List.flatMap_cons, own, List.append_assoc]
  rw [Nat.zero_add] at start
  refine ⟨⟨p.text, slice_of_append _ _ whole start.symm stop.symm, ?_⟩, fun block => ?_⟩
  · refine slice_of_append _ _ blanked ?_ ?_
    · rw [utf8Length_flatMap_blanked, start]
    · rw [stop, utf8Length_flatMap_blankChar]
  · have inside : p ∈ pieces source := by
      rw [split]
      simp
    rw [block] at kind
    obtain ⟨body, begins⟩ := eq_cons_of_blockComment inside kind
    refine slice_of_append _ (body ++ later.flatMap Piece.text) ?_ start.symm rfl
    rw [whole, begins]
    simp

end Typeahead.Source
