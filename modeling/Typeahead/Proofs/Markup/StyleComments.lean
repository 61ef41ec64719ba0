import Typeahead.Proofs.Markup.LastWord
import Typeahead.Proofs.Markup.QuotedValues
import Typeahead.Proofs.Text.AsciiCase

namespace Typeahead.Markup

open Text

/-- What stands between the two marks of a comment, if it has no double quotes. -/
structure IsNote (body : List Char) : Prop where
  unfinished : contains "*/".toList body = false
  unquoted : '"' ∉ body

def styleComment (body : List Char) : List Char := "/*".toList ++ (body ++ "*/".toList)

/-- The text ends inside a comment. -/
def inStyleComment (text : List Char) : Bool := opensLast "/*".toList "*/".toList text

variable {a b body : List Char}

section Suppression

theorem endsInQuotes_comment (unquoted : '"' ∉ body) :
    endsInQuotes (a ++ (styleComment body ++ b)) = endsInQuotes (a ++ b) := by
  have plain : '"' ∉ styleComment body := by simp [styleComment, unquoted]
  rw [endsInQuotes_append, endsInQuotes_append, endsInQuotes_of_not_mem plain, Bool.false_xor, ← endsInQuotes_append]

theorem endsInQuotes_blank : endsInQuotes (a ++ ' ' :: b) = endsInQuotes (a ++ b) := by
  have plain : endsInQuotes [' '] = false := endsInQuotes_of_not_mem (by decide)
  rw [← List.singleton_append, endsInQuotes_append, endsInQuotes_append, plain, Bool.false_xor, ← endsInQuotes_append]

theorem lastOffset_opening (b : List Char) :
    lastOffset "/*".toList ('*' :: '/' :: b) = (lastOffset "/*".toList ('/' :: b)).map (1 + ·) := by
  rw [lastOffset_cons, show '*'.utf8Size = 1 from rfl]
  cases lastOffset "/*".toList ('/' :: b) <;> rfl

theorem lastOffset_closing (b : List Char) :
    lastOffset "*/".toList ('*' :: '/' :: b) = some (((lastOffset "*/".toList ('/' :: b)).map (1 + ·)).getD 0) := by
  rw [lastOffset_cons, show '*'.utf8Size = 1 from rfl]
  cases lastOffset "*/".toList ('/' :: b) <;> rfl

/-- The slash that closes a comment is all of it that counts for the text behind it, since with a star there it
opens another one. -/
theorem inStyleComment_comment (a body b : List Char) :
    inStyleComment (a ++ (styleComment body ++ b)) = inStyleComment ('/' :: b) := by
  have whole : a ++ (styleComment body ++ b) = (a ++ ("/*".toList ++ body)) ++ '*' :: '/' :: b := by
    simp [styleComment]
  rw [whole]
  generalize a ++ ("/*".toList ++ body) = front
  have closed := lastOffset_append_of_some (lastOffset_closing b) front
  unfold inStyleComment opensLast
  rw [closed]
  cases opening : lastOffset "/*".toList ('/' :: b) with
  | some o =>
    have opened := lastOffset_append_of_some (by rw [lastOffset_opening, opening]; rfl) front
    rw [opened]
    cases lastOffset "*/".toList ('/' :: b) with
    | none =>
      simp only [Option.map_none, Option.getD_none, decide_eq_true_eq]
      omega
    | some c =>
      simp only [Option.map_some, Option.getD_some, decide_eq_decide]
      omega
  | none =>
    -- the last one begins in front of the closing star
    cases earlier : lastOffset "/*".toList (front ++ '*' :: '/' :: b) with
    | none => rfl
    | some o =>
      have := lt_of_lastOffset_append (by rw [lastOffset_opening, opening]; rfl) earlier
      simp only [decide_eq_false_iff_not]
      omega

theorem inStyleComment_blank (outside : inStyleComment a = false) :
    inStyleComment (a ++ ' ' :: b) = inStyleComment b := by
  have behind {needle : List Char} {n : Nat} (apart : ' ' ∉ needle) (found : lastOffset needle b = some n) :
      lastOffset needle (a ++ ' ' :: b) = some (utf8Length a + (n + 1)) := by
    refine lastOffset_append_of_some ?_ a
    rw [lastOffset_cons, found, Option.map_some, Option.some_or, Nat.add_comm]
    rfl
  unfold inStyleComment opensLast at *
  cases opening : lastOffset "/*".toList b with
  | some o =>
    rw [behind (by decide) opening]
    cases closing : lastOffset "*/".toList b with
    | some c =>
      rw [behind (by decide) closing]
      simp only [decide_eq_decide]
      omega
    | none =>
      rw [lastOffset_append_cons (by decide) (by decide) closing a]
      cases closed : lastOffset "*/".toList a with
      | none => rfl
      | some c =>
        have : c < utf8Length a := lt_of_lastOffset_append (b := []) rfl (by simpa using closed)
        simp only [decide_eq_true_eq]
        omega
  | none =>
    rw [lastOffset_append_cons (by decide) (by decide) opening a]
    cases opened : lastOffset "/*".toList a with
    | none => rfl
    | some o =>
      cases closed : lastOffset "*/".toList a with
      | none => simp only [opened, closed, Bool.true_eq_false] at outside
      | some c =>
        obtain ⟨later, found, atLeast⟩ := lastOffset_append_le closed (' ' :: b)
        simp only [opened, closed, decide_eq_false_iff_not, Nat.not_lt] at outside
        simp only [found, decide_eq_false_iff_not, Nat.not_lt]
        omega

/-- A text that opens a comment does so behind a slash. -/
theorem inStyleComment_slash (inside : inStyleComment b = true) : inStyleComment ('/' :: b) = true := by
  unfold inStyleComment opensLast at inside ⊢
  cases opening : lastOffset "/*".toList b with
  | none => simp only [opening, Bool.false_eq_true] at inside
  | some o =>
    rw [lastOffset_cons, lastOffset_cons, opening]
    cases closing : lastOffset "*/".toList b with
    | none => rfl
    | some c =>
      simp only [opening, closing, decide_eq_true_eq] at inside
      simp only [Option.map_some, Option.some_or, decide_eq_true_eq]
      omega

end Suppression

section Declarations

/-- The target at the end of one declaration. -/
def StyleTarget.ofDeclaration (declaration : List Char) : Except CutError StyleTarget :=
  match breakFirst (· == ':') declaration with
  | .none => .ok (.property (String.ofList (trimStart declaration)))
  | some (name, _, text) =>
    (lastValue text).map fun typed => .value (String.ofList ((trim name).map Char.toLower)) (String.ofList typed)

theorem StyleTarget.ofDeclarations_eq (text : List Char) :
    StyleTarget.ofDeclarations text =
      if endsInQuotes text || inStyleComment text then .ok .none
      else StyleTarget.ofDeclaration (lastField (· == ';') text) := rfl

theorem StyleTarget.ofDeclaration_ne_none (declaration : List Char) :
    StyleTarget.ofDeclaration declaration ≠ .ok .none := by
  unfold StyleTarget.ofDeclaration
  split
  · simp
  · next text _ =>
    intro read
    obtain ⟨typed, -, built⟩ := map_eq_ok.mp read
    simp at built

/-- In the text a comment is read as a blank is in its place. -/
def ReadsAsBlank (a body b : List Char) : Prop :=
  StyleTarget.ofDeclarations (a ++ (styleComment body ++ b)) = StyleTarget.ofDeclarations (a ++ ' ' :: b)

/-- Where the text ends in no string and no comment, everything is up to the last declaration. -/
theorem readsAsBlank_iff (outside : inStyleComment a = false) (unquoted : '"' ∉ body) :
    ReadsAsBlank a body b ↔ endsInQuotes (a ++ b) = true ∨ inStyleComment b = true ∨
      inStyleComment ('/' :: b) = false ∧
        StyleTarget.ofDeclaration (lastField (· == ';') (a ++ (styleComment body ++ b))) =
          StyleTarget.ofDeclaration (lastField (· == ';') (a ++ ' ' :: b)) := by
  unfold ReadsAsBlank
  rw [StyleTarget.ofDeclarations_eq, StyleTarget.ofDeclarations_eq, endsInQuotes_comment unquoted, endsInQuotes_blank,
    inStyleComment_comment, inStyleComment_blank outside]
  by_cases quoted : endsInQuotes (a ++ b) = true
  · simp [quoted]
  · by_cases inside : inStyleComment b = true
    · simp [inside, inStyleComment_slash inside]
    · by_cases opens : inStyleComment ('/' :: b) = true
      · simp [quoted, inside, opens, (StyleTarget.ofDeclaration_ne_none _).symm]
      · simp [quoted, inside, opens]

/-- How many slashes the name of the property has, as far as it is written. -/
def StyleTarget.nameSlashes : StyleTarget → Nat
  | .none => 0
  | .property typed => typed.toList.count '/'
  | .value name _ => name.toList.count '/'

theorem count_slash_trimStart (cs : List Char) : (trimStart cs).count '/' = cs.count '/' := by
  have blanks : (cs.takeWhile isBlank).count '/' = 0 := by
    rw [List.count_eq_zero]
    intro slash
    have := List.all_eq_true.mp List.all_takeWhile '/' slash
    exact Bool.noConfusion this
  rw [← List.takeWhile_append_dropWhile (p := isBlank) (l := cs), List.count_append, blanks, Nat.zero_add,
    List.takeWhile_append_dropWhile]
  rfl

theorem count_slash_trim (cs : List Char) : (trim cs).count '/' = cs.count '/' := by
  have ends : (trim cs).count '/' = (trimStart (trimStart cs).reverse).count '/' := List.count_reverse
  rw [ends, count_slash_trimStart, List.count_reverse, count_slash_trimStart]

theorem count_slash_toLower (cs : List Char) : (cs.map Char.toLower).count '/' = cs.count '/' := by
  induction cs with
  | nil => rfl
  | cons c cs ih =>
    have letter : (c.toLower == '/') = (c == '/') := by
      rw [Bool.eq_iff_iff, beq_iff_eq, beq_iff_eq]
      exact ⟨fun same => eq_of_toLower_eq same rfl, fun same => by rw [same]; rfl⟩
    rw [List.map_cons, List.count_cons, List.count_cons, ih, letter]

/-- The name keeps every slash in front of the first colon. -/
theorem StyleTarget.nameSlashes_ofDeclaration {front : List Char} {target : StyleTarget} (plain : ':' ∉ front)
    (read : StyleTarget.ofDeclaration (front ++ b) = .ok target) :
    target.nameSlashes = front.count '/' + (b.takeWhile (!· == ':')).count '/' := by
  have passes : ∀ c ∈ front, (!(c == ':')) = true := by
    intro c inside
    rw [Bool.not_eq_true', beq_eq_false_iff_ne]
    exact fun same => plain (same ▸ inside)
  unfold StyleTarget.ofDeclaration breakFirst at read
  rw [List.dropWhile_append_of_pos passes, List.takeWhile_append_of_pos passes] at read
  cases behind : b.dropWhile (!· == ':') with
  | nil =>
    have whole : b.takeWhile (!· == ':') = b := by
      simpa [behind] using List.takeWhile_append_dropWhile (p := (!· == ':')) (l := b)
    simp only [behind, Except.ok.injEq] at read
    rw [← read, whole, StyleTarget.nameSlashes, String.toList_ofList, count_slash_trimStart, List.count_append]
  | cons colon text =>
    simp only [behind] at read
    obtain ⟨typed, -, built⟩ := map_eq_ok.mp read
    rw [← built, StyleTarget.nameSlashes, String.toList_ofList, count_slash_toLower, count_slash_trim,
      List.count_append]

/-- So different numbers of slashes in front of a text give different targets. -/
theorem StyleTarget.ofDeclaration_ne {x y : List Char} {target : StyleTarget} (first : ':' ∉ x) (second : ':' ∉ y)
    (more : x.count '/' ≠ y.count '/') (read : StyleTarget.ofDeclaration (y ++ b) = .ok target) :
    StyleTarget.ofDeclaration (x ++ b) ≠ .ok target := by
  intro same
  have left := StyleTarget.nameSlashes_ofDeclaration first same
  have right := StyleTarget.nameSlashes_ofDeclaration second read
  omega

/-- The value of a property goes on to the end of the text. -/
theorem StyleTarget.ofDeclaration_value {declaration : List Char} (colon : ':' ∈ declaration) :
    ∃ name text, ':' ∉ name ∧ declaration = name ++ ':' :: text ∧ ∀ rest,
      StyleTarget.ofDeclaration (declaration ++ rest) = (lastValue (text ++ rest)).map fun typed =>
        .value (String.ofList ((trim name).map Char.toLower)) (String.ofList typed) := by
  obtain ⟨name, text, rfl, absent⟩ := List.eq_append_cons_of_mem colon
  refine ⟨name, text, absent, rfl, fun rest => ?_⟩
  have named : ∀ c ∈ name, (c == ':') = false := by
    intro c inside
    rw [beq_eq_false_iff_ne]
    exact fun same => absent (same ▸ inside)
  rw [StyleTarget.ofDeclaration, List.append_assoc, List.cons_append, breakFirst_append named (beq_self_eq_true ':')]

/-- What is cut off the end of a text depends on the part behind the last separator alone. -/
theorem behindLast_append {p : Char → Bool} (separated : ∃ c ∈ b, p c = true) (x : List Char) :
    behindLast p (x ++ b) = behindLast p b := by
  obtain ⟨earlier, c, later, rfl, here, absent⟩ := eq_append_last separated
  unfold behindLast
  rw [← List.append_assoc, breakLast_append here absent, breakLast_append here absent]

/-- Without a separator in it the whole end is cut off, with the part before it up to a separator. -/
theorem suffix_of_behindLast_append {p : Char → Bool} {front later word : List Char}
    (unbroken : ∀ x ∈ later, p x = false) (cutOff : behindLast p (front ++ later) = .ok word) : later <:+ word := by
  unfold behindLast at cutOff
  cases found : breakLast p (front ++ later) with
  | none =>
    simp only [found, Except.ok.injEq] at cutOff
    exact cutOff ▸ List.suffix_append front later
  | some parts =>
    obtain ⟨earlier, c, text⟩ := parts
    obtain ⟨whole, here, -⟩ := eq_append_of_breakLast found
    have apart : c ∉ later := by
      intro inside
      rw [unbroken c inside] at here
      exact Bool.noConfusion here
    obtain ⟨back, rfl, -⟩ := eq_append_of_not_mem_right whole apart
    simp only [found, afterFirstByte_cons] at cutOff
    split at cutOff
    · simp only [Except.ok.injEq] at cutOff
      exact cutOff ▸ List.suffix_append back later
    · simp at cutOff

/-- In a value a comment is read like a blank exactly where a separator follows it. -/
theorem lastValue_comment_iff (text body b : List Char) :
    lastValue (text ++ (styleComment body ++ b)) = lastValue (text ++ ' ' :: b) ↔
      ∃ c ∈ b, isValueSeparator c = true := by
  rw [lastValue_eq_behindLast, lastValue_eq_behindLast]
  constructor
  · intro same
    by_contra unseparated
    have unbroken : ∀ c ∈ b, isValueSeparator c = false := by simpa using unseparated
    have blank : behindLast isValueSeparator (text ++ ' ' :: b) = .ok b := by
      rw [behindLast, breakLast_append rfl unbroken]
      exact afterFirstByte_cons ' ' b
    have closing : text ++ (styleComment body ++ b) = (text ++ ("/*".toList ++ (body ++ ['*']))) ++ '/' :: b := by
      simp [styleComment]
    have slashed : ∀ c ∈ '/' :: b, isValueSeparator c = false := List.forall_mem_cons.mpr ⟨rfl, unbroken⟩
    rw [closing, blank] at same
    have := (suffix_of_behindLast_append slashed same).length_le
    simp only [List.length_cons] at this
    omega
  · intro separated
    have front : text ++ ' ' :: b = (text ++ [' ']) ++ b := by simp
    rw [front, ← List.append_assoc, behindLast_append separated, behindLast_append separated]

end Declarations

section Comments

theorem map_eq_map_iff {α β : Type} {f : α → β} (injective : Function.Injective f) {x y : Except CutError α} :
    x.map f = y.map f ↔ x = y := by
  cases x <;> cases y <;> simp [Except.map, injective.eq_iff]

theorem ofDeclaration_of_answered {target : StyleTarget} (outside : inStyleComment a = false)
    (visible : ¬ (endsInQuotes (a ++ b) = true ∨ inStyleComment b = true))
    (read : StyleTarget.ofDeclarations (a ++ ' ' :: b) = .ok target) :
    StyleTarget.ofDeclaration (lastField (· == ';') (a ++ ' ' :: b)) = .ok target := by
  rwa [StyleTarget.ofDeclarations_eq, endsInQuotes_blank, inStyleComment_blank outside,
    if_neg (by simpa using visible)] at read

/-- A semicolon behind the comment ends what is read in front of it. -/
theorem lastField_behind_semicolon (semicolon : ';' ∈ b) (body : List Char) :
    lastField (· == ';') (a ++ (styleComment body ++ b)) = lastField (· == ';') (a ++ ' ' :: b) := by
  have front : a ++ ' ' :: b = (a ++ [' ']) ++ b := by simp
  rw [front, ← List.append_assoc, lastField_append_of_mem semicolon, lastField_append_of_mem semicolon]

/-- A comment without semicolons, and without colons in front of the one of its declaration. -/
theorem readsAsBlank_plain_iff (outside : inStyleComment a = false)
    (answered : ∃ target, StyleTarget.ofDeclarations (a ++ ' ' :: b) = .ok target) (unquoted : '"' ∉ body)
    (plain : ';' ∉ body) (named : ':' ∈ body → ':' ∈ lastField (· == ';') a) :
    ReadsAsBlank a body b ↔ endsInQuotes (a ++ b) = true ∨ inStyleComment b = true ∨
      inStyleComment ('/' :: b) = false ∧
        (';' ∈ b ∨ ':' ∈ lastField (· == ';') a ∧ ∃ c ∈ b, isValueSeparator c = true) := by
  rw [readsAsBlank_iff outside unquoted]
  by_cases suppressed : endsInQuotes (a ++ b) = true ∨ inStyleComment b = true
  · rcases suppressed with quoted | inside
    · simp only [quoted, true_or]
    · simp only [inside, true_or, or_true]
  refine or_congr Iff.rfl (or_congr Iff.rfl (and_congr_right fun _ => ?_))
  obtain ⟨target, read⟩ := answered
  have here := ofDeclaration_of_answered outside suppressed read
  by_cases semicolon : ';' ∈ b
  · exact iff_of_true (by rw [lastField_behind_semicolon semicolon]) (.inl semicolon)
  have noted : ';' ∉ styleComment body ++ b := by simp [styleComment, plain, semicolon]
  have blank : ';' ∉ ' ' :: b := by simp [semicolon]
  rw [lastField_append_of_not_mem blank] at here
  rw [lastField_append_of_not_mem noted, lastField_append_of_not_mem blank]
  by_cases colon : ':' ∈ lastField (· == ';') a
  · obtain ⟨name, text, -, -, reads⟩ := StyleTarget.ofDeclaration_value colon
    rw [reads, reads, map_eq_map_iff fun x y same => String.ofList_injective (by simpa using same),
      lastValue_comment_iff]
    simp [semicolon, colon]
  · -- the comment is part of the name
    refine iff_of_false ?_ (by simp [semicolon, colon])
    have bare : ':' ∉ body := mt named colon
    rw [here, ← List.append_assoc]
    rw [← List.singleton_append, ← List.append_assoc] at here
    refine StyleTarget.ofDeclaration_ne (by simp [styleComment, colon, bare]) (by simp [colon]) ?_ here
    simp [styleComment, List.count_append]

/-- Any comment at all. -/
theorem forall_readsAsBlank_iff (outside : inStyleComment a = false)
    (answered : ∃ target, StyleTarget.ofDeclarations (a ++ ' ' :: b) = .ok target) :
    (∀ body, IsNote body → ReadsAsBlank a body b) ↔
      endsInQuotes (a ++ b) = true ∨ inStyleComment b = true ∨ inStyleComment ('/' :: b) = false ∧ ';' ∈ b := by
  constructor
  · intro all
    by_cases suppressed : endsInQuotes (a ++ b) = true ∨ inStyleComment b = true
    · exact suppressed.imp_right .inl
    obtain ⟨target, read⟩ := answered
    have here := ofDeclaration_of_answered outside suppressed read
    have behind (body : List Char) (note : IsNote body) := by
      have parts := (readsAsBlank_iff outside note.unquoted).mp (all body note)
      rw [← or_assoc] at parts
      exact parts.resolve_left suppressed
    -- the declaration begins in the comment, once without a slash and once with one
    have semicolonOnly : IsNote [';'] := ⟨rfl, by decide⟩
    have slashToo : IsNote [';', '/'] := ⟨rfl, by decide⟩
    obtain ⟨closed, first⟩ := behind _ semicolonOnly
    obtain ⟨-, second⟩ := behind _ slashToo
    refine .inr (.inr ⟨closed, ?_⟩)
    by_contra plain
    have last (more : List Char) (bare : ';' ∉ more) :
        lastField (· == ';') (a ++ (styleComment (';' :: more) ++ b)) = (more ++ "*/".toList) ++ b := by
      have whole : a ++ (styleComment (';' :: more) ++ b) =
          (a ++ "/*".toList) ++ ';' :: ((more ++ "*/".toList) ++ b) := by simp [styleComment]
      rw [whole, lastField_append (by rfl)]
      intro c inside
      rw [beq_eq_false_iff_ne]
      rintro rfl
      simp [bare, plain] at inside
    rw [here, last [] (by decide)] at first
    rw [here, last ['/'] (by decide)] at second
    exact StyleTarget.ofDeclaration_ne (by decide) (by decide) (by decide) second first
  · intro holds body note
    refine (readsAsBlank_iff outside note.unquoted).mpr (holds.imp_right (Or.imp_right fun ⟨closed, semicolon⟩ => ?_))
    exact ⟨closed, by rw [lastField_behind_semicolon semicolon]⟩

/-- A comment is read like a blank, whatever it holds, exactly where nothing is read at all or a semicolon follows
it. A comment without semicolons, and without colons in front of the one of its declaration, is so also in a value,
where a blank or a comma follows it. Neither is where the text behind the comment opens another one with its slash. -/
theorem StyleTarget.ofDeclarations_comment_iff (outside : inStyleComment a = false)
    (answered : ∃ target, StyleTarget.ofDeclarations (a ++ ' ' :: b) = .ok target) :
    ((∀ body, IsNote body → ReadsAsBlank a body b) ↔
      endsInQuotes (a ++ b) = true ∨ inStyleComment b = true ∨ inStyleComment ('/' :: b) = false ∧ ';' ∈ b) ∧
    ∀ body, IsNote body → ';' ∉ body → (':' ∈ body → ':' ∈ lastField (· == ';') a) →
      (ReadsAsBlank a body b ↔ endsInQuotes (a ++ b) = true ∨ inStyleComment b = true ∨
        inStyleComment ('/' :: b) = false ∧
          (';' ∈ b ∨ ':' ∈ lastField (· == ';') a ∧ ∃ c ∈ b, isValueSeparator c = true)) :=
  ⟨forall_readsAsBlank_iff outside answered, fun _ note plain named =>
    readsAsBlank_plain_iff outside answered note.unquoted plain named⟩

/-- A comment between the values of a list. -/
theorem StyleTarget.ofDeclarations_comment_iff_font :
    let a := "color: red; font-family: serif".toList
    let body := " sans: no ".toList
    let b := ", mo".toList
    inStyleComment a = false ∧ StyleTarget.ofDeclarations (a ++ ' ' :: b) = .ok (.value "font-family" "mo") ∧
      IsNote body ∧ ';' ∉ body ∧ ':' ∈ lastField (· == ';') a ∧ ReadsAsBlank a body b := by
  intro a body b
  have outside : inStyleComment a = false := by decide +kernel
  have answer : StyleTarget.ofDeclarations (a ++ ' ' :: b) = .ok (.value "font-family" "mo") := by decide +kernel
  have note : IsNote body := ⟨rfl, by decide⟩
  have plain : ';' ∉ body := by decide
  have valued : ':' ∈ lastField (· == ';') a := by decide +kernel
  refine ⟨outside, answer, note, plain, valued, ?_⟩
  have exact := (StyleTarget.ofDeclarations_comment_iff outside ⟨_, answer⟩).2 body note plain fun _ => valued
  exact exact.mpr (.inr (.inr ⟨by decide +kernel, .inr ⟨valued, ',', by decide, rfl⟩⟩))

/-- In front of a property a comment becomes part of its name. -/
theorem StyleTarget.ofDeclarations_behind_comment :
    StyleTarget.ofDeclarations ([] ++ (styleComment " x ".toList ++ " col".toList)) =
        .ok (.property "/* x */ col") ∧
      StyleTarget.ofDeclarations ([] ++ ' ' :: " col".toList) = .ok (.property "col") := by
  decide +kernel

end Comments

end Typeahead.Markup
