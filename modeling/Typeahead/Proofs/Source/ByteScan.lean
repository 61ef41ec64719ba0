import Typeahead.Proofs.Source.Bytes
import Typeahead.Source.Region

namespace Typeahead.Source

open Text

/-- All characters are outside ASCII, as the bytes of one such character are. -/
def AllWide (bs : List Char) : Prop := ∀ b ∈ bs, 0x80 ≤ b.toNat

theorem AllWide.tail {b : Char} {bs : List Char} (wide : AllWide (b :: bs)) : AllWide bs :=
  fun x member => wide x (List.mem_cons_of_mem _ member)

theorem AllWide.ne_of_mem {bs : List Char} (wide : AllWide bs) {mark : Char} (ascii : mark.toNat < 0x80) {b : Char}
    (inside : b ∈ bs) : b ≠ mark := by
  have := wide b inside
  rintro rfl
  omega

theorem AllWide.ne {b mark : Char} {bs : List Char} (wide : AllWide (b :: bs)) (ascii : mark.toNat < 0x80) :
    b ≠ mark :=
  wide.ne_of_mem ascii List.mem_cons_self

theorem allWide_byteChars {c : Char} (wide : 0x80 ≤ c.toNat) : AllWide (byteChars c) :=
  fun _ member => toNat_of_mem_byteChars wide member

/-- A text whose bytes begin with a character of ASCII begins with that character. -/
theorem eq_cons_of_bytesAsChars {cs tail : List Char} {mark : Char} (ascii : mark.toNat < 0x80)
    (begins : bytesAsChars cs = mark :: tail) : ∃ rest, cs = mark :: rest ∧ tail = bytesAsChars rest := by
  cases cs with
  | nil => simp at begins
  | cons c cs =>
    by_cases narrow : c.toNat < 0x80
    · rw [bytesAsChars_cons_of_ascii narrow] at begins
      obtain ⟨rfl, rfl⟩ := List.cons.inj begins
      exact ⟨cs, rfl, rfl⟩
    · obtain ⟨b, others, bytes⟩ := List.exists_cons_of_ne_nil (byteChars_ne_nil c)
      have wide := allWide_byteChars (c := c) (by omega)
      rw [bytesAsChars_cons, bytes, List.cons_append] at begins
      rw [bytes] at wide
      exact absurd (List.cons.inj begins).1 (wide.ne ascii)

/-- A reader of a body gives the same for bytes as for characters. -/
def TwinBodies (read : List Char → List Char × List Char) (cs : List Char) : Prop :=
  read (bytesAsChars cs) = (bytesAsChars (read cs).1, bytesAsChars (read cs).2)

theorem blockBody_wide {bs : List Char} (wide : AllWide bs) (tail : List Char) :
    blockBody (bs ++ tail) = (bs ++ (blockBody tail).1, (blockBody tail).2) := by
  induction bs with
  | nil => rfl
  | cons b bs ih =>
    rw [List.cons_append, blockBody.eq_3 _ _ fun _ star => absurd star (wide.ne (by decide)), ih wide.tail]
    rfl

theorem twin_blockBody (cs : List Char) : TwinBodies blockBody cs := by
  unfold TwinBodies
  fun_induction blockBody cs with
  | case1 => rfl
  | case2 rest => simp [byteChars_of_ascii, blockBody]
  | case3 c rest other body later read ih =>
    rw [read] at ih
    rw [bytesAsChars_cons]
    by_cases ascii : c.toNat < 0x80
    · have apart : ∀ tail, c = '*' → bytesAsChars rest = '/' :: tail → False := by
        intro tail star slash
        obtain ⟨more, begins, -⟩ := eq_cons_of_bytesAsChars (by decide) slash
        exact other more star begins
      rw [byteChars_of_ascii ascii, List.singleton_append, blockBody.eq_3 _ _ apart, ih]
      simp [byteChars_of_ascii ascii]
    · rw [blockBody_wide (allWide_byteChars (by omega)), ih, bytesAsChars_cons]

variable {quote : Char}

/-- Characters that neither end a literal nor escape what follows them are passed. -/
theorem ordinaryBody_plain {text : List Char} (plain : ∀ c ∈ text, c ≠ '\\' ∧ ¬ (c = quote ∨ c = '\n'))
    (tail : List Char) :
    ordinaryBody quote (text ++ tail) = (text ++ (ordinaryBody quote tail).1, (ordinaryBody quote tail).2) := by
  induction text with
  | nil => rfl
  | cons c text ih =>
    obtain ⟨noEscape, noEnd⟩ := plain c List.mem_cons_self
    rw [List.cons_append, ordinaryBody.eq_4 _ _ _ (fun escape => absurd escape noEscape)
      (fun _ _ escape => absurd escape noEscape), if_neg noEnd,
      ih fun d inside => plain d (List.mem_cons_of_mem _ inside)]
    rfl

theorem ordinaryBody_wide (ascii : quote.toNat < 0x80) {bs : List Char} (wide : AllWide bs)
    (tail : List Char) :
    ordinaryBody quote (bs ++ tail) = (bs ++ (ordinaryBody quote tail).1, (ordinaryBody quote tail).2) :=
  ordinaryBody_plain (fun _ inside => ⟨wide.ne_of_mem (by decide) inside,
    not_or.mpr ⟨wide.ne_of_mem ascii inside, wide.ne_of_mem (by decide) inside⟩⟩) tail

/-- A backslash takes along the first byte of a character; the others are nothing to stop at. -/
theorem ordinaryBody_escape (ascii : quote.toNat < 0x80) (c : Char) (tail : List Char) :
    ordinaryBody quote ('\\' :: (byteChars c ++ tail)) =
      ('\\' :: (byteChars c ++ (ordinaryBody quote tail).1), (ordinaryBody quote tail).2) := by
  obtain ⟨b, others, bytes⟩ := List.exists_cons_of_ne_nil (byteChars_ne_nil c)
  have wide : AllWide others := by
    by_cases narrow : c.toNat < 0x80
    · rw [byteChars_of_ascii narrow] at bytes
      rw [← (List.cons.inj bytes).2]
      simp [AllWide]
    · have all := allWide_byteChars (c := c) (by omega)
      rw [bytes] at all
      exact all.tail
  rw [bytes, List.cons_append, ordinaryBody.eq_3, ordinaryBody_wide ascii wide]
  rfl

theorem twin_ordinaryBody (ascii : quote.toNat < 0x80) (cs : List Char) :
    TwinBodies (ordinaryBody quote) cs := by
  unfold TwinBodies
  fun_induction ordinaryBody quote cs with
  | case1 => rfl
  | case2 => simp [byteChars_of_ascii, ordinaryBody]
  | case3 c rest body later read ih =>
    rw [read] at ih
    rw [bytesAsChars_cons_of_ascii (by decide), bytesAsChars_cons,
      ordinaryBody_escape ascii, ih]
    simp [byteChars_of_ascii]
  | case4 c rest noEnd noEscape stops =>
    have narrow : c.toNat < 0x80 := by
      rcases stops with rfl | rfl
      · exact ascii
      · decide
    have plain : c = '\\' → False := by
      rintro rfl
      cases rest with
      | nil => exact noEnd rfl rfl
      | cons d rest => exact noEscape d rest rfl rfl
    rw [bytesAsChars_cons_of_ascii narrow,
      ordinaryBody.eq_4 _ _ _ (fun escape => absurd escape plain) (fun _ _ escape => absurd escape plain),
      if_pos stops]
    rfl
  | case5 c rest noEnd noEscape goesOn body later read ih =>
    rw [read] at ih
    have plain : c = '\\' → False := by
      rintro rfl
      cases rest with
      | nil => exact noEnd rfl rfl
      | cons d rest => exact noEscape d rest rfl rfl
    rw [bytesAsChars_cons]
    by_cases narrow : c.toNat < 0x80
    · rw [byteChars_of_ascii narrow, List.singleton_append,
        ordinaryBody.eq_4 _ _ _ (fun escape => absurd escape plain) (fun _ _ escape => absurd escape plain),
        if_neg goesOn, ih]
      simp [byteChars_of_ascii narrow]
    · rw [ordinaryBody_wide ascii (allWide_byteChars (by omega)), ih, bytesAsChars_cons]

theorem verbatimBody_plain {text : List Char} (plain : ∀ c ∈ text, c ≠ '"') (tail : List Char) :
    verbatimBody (text ++ tail) = (text ++ (verbatimBody tail).1, (verbatimBody tail).2) := by
  induction text with
  | nil => rfl
  | cons c text ih =>
    have here : c ≠ '"' := plain c List.mem_cons_self
    rw [List.cons_append, verbatimBody.eq_3 _ _ fun _ mark => absurd mark here, if_neg here,
      ih fun d inside => plain d (List.mem_cons_of_mem _ inside)]
    rfl

theorem verbatimBody_wide {bs : List Char} (wide : AllWide bs) (tail : List Char) :
    verbatimBody (bs ++ tail) = (bs ++ (verbatimBody tail).1, (verbatimBody tail).2) :=
  verbatimBody_plain (fun _ inside => wide.ne_of_mem (by decide) inside) tail

theorem twin_verbatimBody (cs : List Char) : TwinBodies verbatimBody cs := by
  unfold TwinBodies
  fun_induction verbatimBody cs with
  | case1 => rfl
  | case2 rest body later read ih =>
    rw [read] at ih
    simp only [bytesAsChars_cons_of_ascii (c := '"') (by decide), verbatimBody, ih]
  | case3 rest single =>
    have apart : ∀ tail, '"' = '"' → bytesAsChars rest = '"' :: tail → False := by
      intro tail _ begins
      obtain ⟨more, same, -⟩ := eq_cons_of_bytesAsChars (by decide) begins
      exact single more rfl same
    rw [bytesAsChars_cons_of_ascii (by decide),
      verbatimBody.eq_3 _ _ apart, if_pos rfl]
    simp
  | case4 c rest single goesOn body later read ih =>
    rw [read] at ih
    rw [bytesAsChars_cons]
    by_cases narrow : c.toNat < 0x80
    · rw [byteChars_of_ascii narrow, List.singleton_append,
        verbatimBody.eq_3 _ _ (fun _ mark => absurd mark goesOn), if_neg goesOn, ih]
      simp [byteChars_of_ascii narrow]
    · rw [verbatimBody_wide (allWide_byteChars (by omega)), ih, bytesAsChars_cons]

/-- The piece as its bytes. -/
def Piece.toBytes (p : Piece) : Piece := ⟨p.kind, bytesAsChars p.text⟩

theorem twin_literalPieces (quote : Char) (ascii : quote.toNat < 0x80) (body rest : List Char) :
    literalPieces quote (bytesAsChars body) (bytesAsChars rest) =
      ((literalPieces quote body rest).1.map Piece.toBytes, bytesAsChars (literalPieces quote body rest).2) := by
  cases rest with
  | nil => rfl
  | cons c later =>
    by_cases closes : c = quote
    · subst closes
      simp [literalPieces, byteChars_of_ascii ascii, code, Piece.toBytes]
    · have apart : ∀ b tail, bytesAsChars (c :: later) = b :: tail → b ≠ quote := by
        rintro b tail begins rfl
        obtain ⟨more, same, -⟩ := eq_cons_of_bytesAsChars ascii begins
        exact closes (List.cons.inj same).1
      obtain ⟨b, tail, begins⟩ :=
        List.exists_cons_of_ne_nil (List.append_ne_nil_of_left_ne_nil (byteChars_ne_nil c) (bytesAsChars later))
      rw [← bytesAsChars_cons] at begins
      simp only [literalPieces, begins, if_neg (apart b tail begins), if_neg closes, Piece.toBytes,
        List.map_cons, List.map_nil]

/-- The pieces of a literal whose body is read byte by byte. -/
theorem twin_literal (quote : Char) (ascii : quote.toNat < 0x80)
    {read : List Char → List Char × List Char} {cs : List Char} (twin : TwinBodies read cs) :
    literalPieces quote (read (bytesAsChars cs)).1 (read (bytesAsChars cs)).2 =
      ((literalPieces quote (read cs).1 (read cs).2).1.map Piece.toBytes,
        bytesAsChars (literalPieces quote (read cs).1 (read cs).2).2) := by
  unfold TwinBodies at twin
  rw [twin]
  exact twin_literalPieces quote ascii (read cs).1 (read cs).2

/-- The regions of pieces that were read byte by byte: an offset counts characters, each being a byte. -/
def byteRegionsFrom (offset : Nat) : List Piece → List Region
  | [] => []
  | p :: ps =>
    let stop := offset + p.text.length
    match p.kind with
    | some kind => ⟨kind, offset, stop⟩ :: byteRegionsFrom stop ps
    | none => byteRegionsFrom stop ps

/-- The regions that a scan over the bytes of a source finds. -/
def regionsOfBytes (source : List Char) : List Region := byteRegionsFrom 0 (pieces (bytesAsChars source))

theorem byteRegionsFrom_append_toBytes (offset : Nat) (ps qs : List Piece) :
    byteRegionsFrom offset (ps.map Piece.toBytes ++ qs) =
      regionsFrom offset ps ++ byteRegionsFrom (offset + utf8Length (ps.flatMap Piece.text)) qs := by
  induction ps generalizing offset with
  | nil => rfl
  | cons p ps ih =>
    have next : offset + utf8Length p.text + utf8Length (ps.flatMap Piece.text) =
        offset + utf8Length ((p :: ps).flatMap Piece.text) := by
      rw [List.flatMap_cons, utf8Length_append]
      omega
    simp only [List.map_cons, List.cons_append, byteRegionsFrom, regionsFrom, Piece.toBytes,
      length_bytesAsChars, ih, next]
    cases p.kind <;> rfl

theorem regionsFrom_append (offset : Nat) (ps qs : List Piece) :
    regionsFrom offset (ps ++ qs) =
      regionsFrom offset ps ++ regionsFrom (offset + utf8Length (ps.flatMap Piece.text)) qs := by
  induction ps generalizing offset with
  | nil => rfl
  | cons p ps ih =>
    have next : offset + utf8Length p.text + utf8Length (ps.flatMap Piece.text) =
        offset + utf8Length ((p :: ps).flatMap Piece.text) := by
      rw [List.flatMap_cons, utf8Length_append]
      omega
    simp only [List.cons_append, regionsFrom, ih, next]
    cases p.kind <;> rfl

/-- The bytes of a character outside ASCII are code, one after the other. -/
theorem byteRegionsFrom_wide {bs : List Char} (wide : AllWide bs) (offset : Nat) (tail : List Char) :
    byteRegionsFrom offset (pieces (bs ++ tail)) = byteRegionsFrom (offset + bs.length) (pieces tail) := by
  induction bs generalizing offset with
  | nil => rfl
  | cons b bs ih =>
    have slash : b ≠ '/' := wide.ne (by decide)
    have at_ : b ≠ '@' := wide.ne (by decide)
    have noQuote : ¬ (b = '"' ∨ b = '\'') := not_or.mpr ⟨wide.ne (by decide), wide.ne (by decide)⟩
    rw [List.cons_append, pieces.eq_6 _ _ (fun _ mark => absurd mark slash) (fun _ mark => absurd mark slash)
      (fun _ mark => absurd mark at_) (fun _ mark => absurd mark at_), if_neg noQuote]
    have next : offset + [b].length + bs.length = offset + (b :: bs).length := by
      rw [List.length_singleton, List.length_cons]
      omega
    rw [← next, ← ih wide.tail]
    rfl

/-- Bytes that give the same first pieces as the characters, and then those of the rest. -/
theorem byteRegionsFrom_of_pieces {bytes rest : List Char} (ps : List Piece)
    (split : pieces bytes = ps.map Piece.toBytes ++ pieces (bytesAsChars rest))
    (same : ∀ offset, byteRegionsFrom offset (pieces (bytesAsChars rest)) = regionsFrom offset (pieces rest))
    (offset : Nat) : byteRegionsFrom offset (pieces bytes) = regionsFrom offset (ps ++ pieces rest) := by
  rw [split, byteRegionsFrom_append_toBytes, regionsFrom_append, same]

/-- A character of ASCII that opens nothing is code among bytes too. -/
theorem pieces_bytesAsChars_of_code {c : Char} {rest : List Char} (ascii : c.toNat < 0x80)
    (comment : ∀ more, c = '/' → rest = '/' :: more → False)
    (block : ∀ more, c = '/' → rest = '*' :: more → False)
    (verbatim : ∀ more, c = '@' → rest = '"' :: more → False)
    (dollar : ∀ more, c = '@' → rest = '$' :: '"' :: more → False) (noQuote : ¬ (c = '"' ∨ c = '\'')) :
    pieces (bytesAsChars (c :: rest)) = [code c].map Piece.toBytes ++ pieces (bytesAsChars rest) := by
  rw [bytesAsChars_cons_of_ascii ascii, pieces.eq_6 _ _ ?_ ?_ ?_ ?_, if_neg noQuote]
  · simp only [List.map_cons, List.map_nil, List.singleton_append, Piece.toBytes, code,
      bytesAsChars_cons_of_ascii ascii, bytesAsChars_nil]
  · intro tail slash same
    obtain ⟨more, begins, -⟩ := eq_cons_of_bytesAsChars (by decide) same
    exact comment more slash begins
  · intro tail slash same
    obtain ⟨more, begins, -⟩ := eq_cons_of_bytesAsChars (by decide) same
    exact block more slash begins
  · intro tail sign same
    obtain ⟨more, begins, -⟩ := eq_cons_of_bytesAsChars (by decide) same
    exact verbatim more sign begins
  · intro tail sign same
    obtain ⟨more, begins, later⟩ := eq_cons_of_bytesAsChars (by decide) same
    obtain ⟨last, quote, -⟩ := eq_cons_of_bytesAsChars (by decide) later.symm
    exact dollar last sign (by rw [begins, quote])

theorem byteRegionsFrom_eq (offset : Nat) (cs : List Char) :
    byteRegionsFrom offset (pieces (bytesAsChars cs)) = regionsFrom offset (pieces cs) := by
  have reads : ReadsBytes fun c => decide (c ≠ '\n') := readsBytes_ne '\n' (by decide)
  fun_induction pieces cs generalizing offset with
  | case1 => rw [bytesAsChars_nil, pieces]; rfl
  | case2 rest ih =>
    refine byteRegionsFrom_of_pieces [_] ?_ ih offset
    simp only [bytesAsChars_cons_of_ascii (c := '/') (by decide), pieces, takeWhile_bytesAsChars reads,
      dropWhile_bytesAsChars reads, List.map_cons, List.map_nil, Piece.toBytes, List.singleton_append]
  | case3 rest ih =>
    refine byteRegionsFrom_of_pieces [_] ?_ ih offset
    have body : TwinBodies blockBody rest := twin_blockBody rest
    unfold TwinBodies at body
    simp only [bytesAsChars_cons_of_ascii (c := '/') (by decide),
      bytesAsChars_cons_of_ascii (c := '*') (by decide), pieces, body, List.map_cons, List.map_nil,
      Piece.toBytes, List.singleton_append]
  | case4 rest read ih =>
    refine byteRegionsFrom_of_pieces (code '@' :: code '"' :: read.1) ?_ ih offset
    have literal := twin_literal '"' (by decide) (twin_verbatimBody rest)
    simp only [bytesAsChars_cons_of_ascii (c := '@') (by decide),
      bytesAsChars_cons_of_ascii (c := '"') (by decide), pieces, literal, List.map_cons,
      List.cons_append, read, Piece.toBytes, code, bytesAsChars_nil]
  | case5 rest read ih =>
    refine byteRegionsFrom_of_pieces (code '@' :: code '$' :: code '"' :: read.1) ?_ ih offset
    have literal := twin_literal '"' (by decide) (twin_verbatimBody rest)
    simp only [bytesAsChars_cons_of_ascii (c := '@') (by decide),
      bytesAsChars_cons_of_ascii (c := '$') (by decide), bytesAsChars_cons_of_ascii (c := '"') (by decide),
      pieces, literal, List.map_cons, List.cons_append, read, Piece.toBytes, code, bytesAsChars_nil]
  | case6 c rest _ _ _ _ opens read ih =>
    refine byteRegionsFrom_of_pieces (code c :: read.1) ?_ ih offset
    have ascii : c.toNat < 0x80 := by rcases opens with rfl | rfl <;> decide
    have slash : c = '/' → False := by rintro rfl; simp at opens
    have sign : c = '@' → False := by rintro rfl; simp at opens
    have literal := twin_literal c ascii (twin_ordinaryBody ascii rest)
    rw [bytesAsChars_cons_of_ascii ascii,
      pieces.eq_6 _ _ (fun _ mark => absurd mark slash) (fun _ mark => absurd mark slash)
        (fun _ mark => absurd mark sign) (fun _ mark => absurd mark sign), if_pos opens]
    simp only [literal, List.map_cons, List.cons_append, read, Piece.toBytes, code,
      bytesAsChars_cons_of_ascii ascii, bytesAsChars_nil]
  | case7 c rest comment block verbatim dollar noQuote ih =>
    by_cases ascii : c.toNat < 0x80
    · exact byteRegionsFrom_of_pieces [code c]
        (pieces_bytesAsChars_of_code ascii comment block verbatim dollar noQuote) ih offset
    · rw [bytesAsChars_cons, byteRegionsFrom_wide (allWide_byteChars (by omega)), length_byteChars, ih]
      simp [regionsFrom, code]

theorem regionsOfBytes_eq (source : List Char) : regionsOfBytes source = regions source :=
  byteRegionsFrom_eq 0 source

def blankByte (b : Char) : Char := if b = '\n' ∨ b = '\r' then b else ' '

/-- The bytes of a region blanked, all others left. -/
def overwrite (bs : List Char) (r : Region) : List Char :=
  bs.take r.start ++ ((bs.drop r.start).take (r.stop - r.start)).map blankByte ++ bs.drop r.stop

/-- The bytes of a source with those of its comments and literals overwritten. -/
def blankedBytes (source : List Char) : List Char :=
  (regionsOfBytes source).foldl overwrite (bytesAsChars source)

theorem overwrite_behind (kind : RegionKind) (front body rest : List Char) :
    overwrite (front ++ body ++ rest) ⟨kind, front.length, front.length + body.length⟩ =
      front ++ body.map blankByte ++ rest := by
  have first : (front ++ body ++ rest).take front.length = front := by
    rw [List.append_assoc, List.take_left]
  have middle : (front ++ body ++ rest).drop front.length = body ++ rest := by
    rw [List.append_assoc, List.drop_left]
  have last : (front ++ body ++ rest).drop (front.length + body.length) = rest := by
    rw [← List.length_append, List.drop_left]
  rw [overwrite, first, middle, last, Nat.add_sub_cancel_left, List.take_left]

theorem bytesAsChars_replicate_space (n : Nat) :
    bytesAsChars (List.replicate n ' ') = List.replicate n ' ' := by
  induction n with
  | zero => rfl
  | succ n ih => rw [List.replicate_succ, bytesAsChars_cons_of_ascii (by decide), ih]

/-- A blanked character is as many spaces as it had bytes, whichever way it is blanked. -/
theorem map_blankByte_byteChars (c : Char) : (byteChars c).map blankByte = bytesAsChars (blankChar c) := by
  by_cases lineBreak : c = '\n' ∨ c = '\r'
  · have ascii : c.toNat < 0x80 := by rcases lineBreak with rfl | rfl <;> decide
    rw [byteChars_of_ascii ascii, blankChar, if_pos lineBreak, bytesAsChars_cons_of_ascii ascii]
    simp [blankByte, lineBreak]
  · have blank : ∀ b ∈ byteChars c, blankByte b = ' ' := by
      intro b member
      have other : ¬ (b = '\n' ∨ b = '\r') := by
        by_cases ascii : c.toNat < 0x80
        · rw [byteChars_of_ascii ascii, List.mem_singleton] at member
          rwa [member]
        · have wide := toNat_of_mem_byteChars (c := c) (by omega) member
          rintro (rfl | rfl) <;> exact absurd wide (by decide)
      rw [blankByte, if_neg other]
    rw [blankChar, if_neg lineBreak, bytesAsChars_replicate_space, List.eq_replicate_iff]
    refine ⟨by rw [List.length_map, length_byteChars], fun b member => ?_⟩
    obtain ⟨byte, inside, rfl⟩ := List.mem_map.mp member
    exact blank byte inside

theorem map_blankByte_bytesAsChars (cs : List Char) :
    (bytesAsChars cs).map blankByte = bytesAsChars (cs.flatMap blankChar) := by
  induction cs with
  | nil => rfl
  | cons c cs ih =>
    rw [bytesAsChars_cons, List.map_append, map_blankByte_byteChars, ih, List.flatMap_cons,
      bytesAsChars_append]

theorem foldl_overwrite (front : List Char) (ps : List Piece) :
    (regionsFrom front.length ps).foldl overwrite (front ++ bytesAsChars (ps.flatMap Piece.text)) =
      front ++ bytesAsChars (ps.flatMap Piece.blanked) := by
  induction ps generalizing front with
  | nil => rfl
  | cons p ps ih =>
    have next {bs : List Char} (same : bs.length = utf8Length p.text) :
        front.length + utf8Length p.text = (front ++ bs).length := by
      rw [List.length_append, same]
    simp only [regionsFrom, List.flatMap_cons, bytesAsChars_append, ← List.append_assoc]
    split
    · next kind isKind =>
      have body : p.blanked = p.text.flatMap blankChar := by simp [Piece.blanked, isKind]
      have size : (bytesAsChars p.blanked).length = utf8Length p.text := by
        rw [length_bytesAsChars, Piece.utf8Length_blanked]
      have region := overwrite_behind kind front (bytesAsChars p.text) (bytesAsChars (ps.flatMap Piece.text))
      rw [length_bytesAsChars, map_blankByte_bytesAsChars, ← body] at region
      rw [List.foldl_cons, region, next size, ih]
    · next noKind =>
      have body : p.blanked = p.text := by simp [Piece.blanked, noKind]
      rw [body, next (length_bytesAsChars p.text), ih]

/-- Overwriting the bytes of comments and literals gives the bytes of a text, the blanked one. -/
theorem blankedBytes_eq (source : List Char) : blankedBytes source = bytesAsChars (blank source) := by
  have whole := foldl_overwrite [] (pieces source)
  rw [List.nil_append, List.nil_append, flatMap_text_pieces] at whole
  rw [blankedBytes, regionsOfBytes_eq]
  exact whole

/-- The search of the closing brace among bytes. -/
def closingByte (offset depth : Nat) : List Char → Option Nat
  | [] => none
  | b :: bs =>
    if b = '{' then closingByte (offset + 1) (depth + 1) bs
    else if b = '}' then
      if depth ≤ 1 then some offset else closingByte (offset + 1) (depth - 1) bs
    else closingByte (offset + 1) depth bs

theorem closingByte_wide {bs : List Char} (wide : AllWide bs) (offset depth : Nat) (tail : List Char) :
    closingByte offset depth (bs ++ tail) = closingByte (offset + bs.length) depth tail := by
  induction bs generalizing offset with
  | nil => rfl
  | cons b bs ih =>
    have next : offset + 1 + bs.length = offset + (b :: bs).length := by
      rw [List.length_cons]
      omega
    rw [List.cons_append, closingByte, if_neg (wide.ne (by decide)), if_neg (wide.ne (by decide)),
      ih wide.tail, next]

theorem closingByte_eq (offset depth : Nat) (cs : List Char) :
    closingByte offset depth (bytesAsChars cs) = closingBrace offset depth cs := by
  induction cs generalizing offset depth with
  | nil => rfl
  | cons c cs ih =>
    by_cases ascii : c.toNat < 0x80
    · simp only [bytesAsChars_cons_of_ascii ascii, closingByte, closingBrace, ih, utf8Size_of_ascii ascii]
    · have wide := allWide_byteChars (c := c) (by omega)
      have noBrace {mark : Char} (narrow : mark.toNat < 0x80) : c ≠ mark := by
        rintro rfl
        exact ascii narrow
      rw [bytesAsChars_cons, closingByte_wide wide, length_byteChars, ih, closingBrace,
        if_neg (noBrace (by decide)), if_neg (noBrace (by decide))]

end Typeahead.Source
