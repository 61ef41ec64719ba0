import Mathlib.Data.List.Nodup
import Typeahead.Proofs.Catalog.Inheritance
import Typeahead.Proofs.Catalog.TypeTerm

namespace Typeahead

open Text Typeahead.TypeName

mutual

/-- A type as written, a type inside a generic one included. -/
inductive TypeForm where
  | name (name : DottedName)
  | generic (head : DottedName) (arguments : FormArguments) (inner : InnerForm)
  | nullable (t : TypeForm)
  /-- One dimension more than commas. -/
  | array (element : TypeForm) (commas : Nat)

/-- One or more type arguments, each with the blanks around it. -/
inductive FormArguments where
  | last (before : Blanks) (argument : TypeForm) (behind : Blanks)
  | cons (before : Blanks) (argument : TypeForm) (behind : Blanks) (more : FormArguments)

/-- What is taken from inside a generic type, its name with the separator in front. -/
inductive InnerForm where
  | none
  | name (name : DottedName)
  | generic (head : DottedName) (arguments : FormArguments) (inner : InnerForm)

end

mutual

def TypeForm.text : TypeForm → List Char
  | .name name => name.text
  | .generic head arguments inner => head.text ++ '<' :: (arguments.text ++ inner.text)
  | .nullable t => t.text ++ ['?']
  | .array element commas => element.text ++ '[' :: (List.replicate commas ',' ++ [']'])

/-- The arguments up to the bracket behind them. -/
def FormArguments.text : FormArguments → List Char
  | .last before argument behind => before.text ++ (argument.text ++ (behind.text ++ ['>']))
  | .cons before argument behind more => before.text ++ (argument.text ++ (behind.text ++ ',' :: more.text))

def InnerForm.text : InnerForm → List Char
  | .none => []
  | .name name => name.text
  | .generic head arguments inner => head.text ++ '<' :: (arguments.text ++ inner.text)

end

/-- The reference as it is written. -/
def TypeForm.typeName (t : TypeForm) : TypeName := ⟨String.ofList t.text⟩

mutual

/-- Every name that stands for a type by itself becomes what it is bound to, all at once. -/
def TypeForm.subst (bound : String → Option TypeForm) : TypeForm → TypeForm
  | .name name => (bound (String.ofList name.text)).getD (.name name)
  | .generic head arguments inner => .generic head (arguments.subst bound) (inner.subst bound)
  | .nullable t => .nullable (t.subst bound)
  | .array element commas => .array (element.subst bound) commas

def FormArguments.subst (bound : String → Option TypeForm) : FormArguments → FormArguments
  | .last before argument behind => .last before (argument.subst bound) behind
  | .cons before argument behind more => .cons before (argument.subst bound) behind (more.subst bound)

def InnerForm.subst (bound : String → Option TypeForm) : InnerForm → InnerForm
  | .none => .none
  | .name name => .name name
  | .generic head arguments inner => .generic head (arguments.subst bound) (inner.subst bound)

end

mutual

/-- The names that do not stand for a type by themselves, since arguments follow them or a generic type stands in
front of them. -/
def TypeForm.heads : TypeForm → List String
  | .name _ => []
  | .generic head arguments inner => String.ofList head.text :: (arguments.heads ++ inner.heads)
  | .nullable t => t.heads
  | .array element _ => element.heads

def FormArguments.heads : FormArguments → List String
  | .last _ argument _ => argument.heads
  | .cons _ argument _ more => argument.heads ++ more.heads

def InnerForm.heads : InnerForm → List String
  | .none => []
  | .name name => [String.ofList name.text]
  | .generic head arguments inner => String.ofList head.text :: (arguments.heads ++ inner.heads)

end

/-- The change of a text that puts for every name what it is bound to. -/
structure Replaces (change : Part → List Char) (bound : String → Option TypeForm) : Prop where
  marks : ∀ c, change (.mark c) = [c]
  names : ∀ name : DottedName,
    change (.name name.text) = ((bound (String.ofList name.text)).getD (.name name)).text

section Rewriting

variable {change : Part → List Char} {bound : String → Option TypeForm} (replaces : Replaces change bound)

include replaces

/-- A name that is not bound stays. -/
theorem rewritten_unbound {name : DottedName} (free : bound (String.ofList name.text) = none) :
    rewritten change name.text = name.text := by
  rw [rewritten_name, replaces.names, free, Option.getD_none, TypeForm.text]

theorem rewritten_head {head : DottedName} (free : bound (String.ofList head.text) = none) (rest : List Char) :
    rewritten change (head.text ++ '<' :: rest) = head.text ++ '<' :: rewritten change rest := by
  rw [rewritten_append_mark replaces.marks (by decide), rewritten_unbound replaces free]

mutual

theorem rewritten_text : ∀ t : TypeForm, (∀ head ∈ t.heads, bound head = none) →
    rewritten change t.text = (t.subst bound).text
  | .name name, _ => by
    rw [TypeForm.text, rewritten_name, replaces.names, TypeForm.subst]
  | .generic head arguments inner, free => by
    rw [TypeForm.heads, List.forall_mem_cons, List.forall_mem_append] at free
    rw [TypeForm.text, rewritten_head replaces free.1, rewritten_arguments arguments free.2.1,
      rewritten_inner inner free.2.2]
    rfl
  | .nullable t, free => by
    rw [TypeForm.text, rewritten_append_mark replaces.marks (by decide), rewritten_text t free]
    rfl
  | .array element commas, free => by
    have rank : rewritten change (List.replicate commas ',' ++ [']']) = List.replicate commas ',' ++ [']'] := by
      rw [rewritten_marks replaces.marks fun c member => (List.eq_of_mem_replicate member) ▸ by decide,
        rewritten_cons_mark replaces.marks (by decide)]
      rfl
    rw [TypeForm.text, rewritten_append_mark replaces.marks (by decide), rewritten_text element free, rank]
    rfl

/-- The arguments end in a mark, so a name behind them is a name of its own. -/
theorem rewritten_arguments : ∀ as : FormArguments, (∀ head ∈ as.heads, bound head = none) → ∀ rest,
    rewritten change (as.text ++ rest) = (as.subst bound).text ++ rewritten change rest
  | .last before argument behind, free, rest => by
    have between := rewritten_between replaces.marks before behind (show isNameChar '>' = false by decide)
      argument.text rest
    rw [rewritten_text argument free] at between
    simpa [FormArguments.text, FormArguments.subst] using between
  | .cons before argument behind more, free, rest => by
    rw [FormArguments.heads, List.forall_mem_append] at free
    have between := rewritten_between replaces.marks before behind (show isNameChar ',' = false by decide)
      argument.text (more.text ++ rest)
    rw [rewritten_text argument free.1, rewritten_arguments more free.2] at between
    simpa [FormArguments.text, FormArguments.subst] using between

theorem rewritten_inner : ∀ inner : InnerForm, (∀ head ∈ inner.heads, bound head = none) →
    rewritten change inner.text = (inner.subst bound).text
  | .none, _ => rfl
  | .name name, free => rewritten_unbound replaces (free _ List.mem_cons_self)
  | .generic head arguments inner, free => by
    rw [InnerForm.heads, List.forall_mem_cons, List.forall_mem_append] at free
    rw [InnerForm.text, rewritten_head replaces free.1, rewritten_arguments arguments free.2.1,
      rewritten_inner inner free.2.2]
    rfl

end

end Rewriting

section Substitution

/-- The argument at the place of the parameter. -/
def argumentFor (parameters : List String) (arguments : List TypeForm) (name : String) : Option TypeForm :=
  (parameters.zip arguments).lookup name

variable {parameters : List String} {arguments : List TypeForm}

theorem replaces_substitute :
    Replaces (Part.substitute parameters (arguments.map (·.typeName))) (argumentFor parameters arguments) where
  marks _ := rfl
  names name := by
    rw [Part.substitute, replacement?_map, ← argumentFor]
    cases argumentFor parameters arguments (String.ofList name.text) with
    | none => rfl
    | some t => simp [TypeForm.typeName]

theorem argumentFor_eq_some_iff (distinct : parameters.Nodup) {name : String} {t : TypeForm} :
    argumentFor parameters arguments name = some t ↔
      ∃ i : Nat, parameters[i]? = some name ∧ arguments[i]? = some t := by
  unfold argumentFor
  induction parameters generalizing arguments with
  | nil => simp
  | cons p parameters ih =>
    obtain ⟨fresh, distinct⟩ := List.nodup_cons.mp distinct
    cases arguments with
    | nil => simp
    | cons a arguments =>
      rw [List.zip_cons_cons, List.lookup_cons]
      by_cases here : name = p
      · subst here
        rw [beq_self_eq_true]
        constructor
        · intro same
          exact ⟨0, by simp, by simpa using same⟩
        · rintro ⟨i, atParameter, atArgument⟩
          cases i with
          | zero => simpa using atArgument
          | succ i => exact absurd (List.mem_of_getElem? (List.getElem?_cons_succ ▸ atParameter)) fresh
      · rw [beq_eq_false_iff_ne.mpr here]
        refine (ih distinct).trans ⟨fun ⟨i, both⟩ => ⟨i + 1, both⟩, fun ⟨i, atParameter, atArgument⟩ => ?_⟩
        cases i with
        | zero => exact absurd (by simpa using atParameter) (Ne.symm here)
        | succ i => exact ⟨i, atParameter, atArgument⟩

/-- Replacing the parameters in the text of a type replaces them in the type: every name that is a parameter and
stands for a type by itself becomes the argument at the parameter's place, all at once. A parameter without an
argument stays, and so does every other name. -/
theorem substitute_typeForm (distinct : parameters.Nodup) (arguments : List TypeForm) {t : TypeForm}
    (unapplied : ∀ head ∈ t.heads, head ∉ parameters) :
    t.typeName.substitute parameters (arguments.map (·.typeName)) =
        (t.subst (argumentFor parameters arguments)).typeName ∧
      ∀ name a, argumentFor parameters arguments name = some a ↔
        ∃ i : Nat, parameters[i]? = some name ∧ arguments[i]? = some a := by
  have free : ∀ head ∈ t.heads, argumentFor parameters arguments head = none := fun head member =>
    lookup_zip_eq_none arguments (unapplied head member)
  have whole := rewritten_text replaces_substitute t free
  refine ⟨?_, fun name a => argumentFor_eq_some_iff distinct⟩
  simp only [TypeForm.typeName, TypeName.substitute, String.toList_ofList, ← whole]
  rfl

/-- Arguments between no blanks. -/
def bareArguments (first : TypeForm) : List TypeForm → FormArguments
  | [] => .last Catalog.noBlanks first Catalog.noBlanks
  | next :: more => .cons Catalog.noBlanks first Catalog.noBlanks (bareArguments next more)

/-- `Index<TCell,U.TCell[,]>.Entry<TKey?>[]`. -/
def entryForm : TypeForm :=
  .array
    (.generic (Catalog.dotted "Index")
      (bareArguments (.name (Catalog.dotted "TCell")) [.array (.name (Catalog.dotted "U.TCell")) 1])
      (.generic (Catalog.dotted ".Entry") (bareArguments (.nullable (.name (Catalog.dotted "TKey"))) []) .none))
    0

theorem substitute_typeForm_entry :
    ["TKey", "TCell", "TRest"].Nodup ∧ (∀ head ∈ entryForm.heads, head ∉ ["TKey", "TCell", "TRest"]) ∧
      entryForm.typeName.substitute ["TKey", "TCell", "TRest"] [⟨"Row<TCell>"⟩, ⟨"TKey[]"⟩] =
        ⟨"Index<TKey[],U.TCell[,]>.Entry<Row<TCell>?>[]"⟩ := by
  have distinct : ["TKey", "TCell", "TRest"].Nodup := by decide
  have unapplied : ∀ head ∈ entryForm.heads, head ∉ ["TKey", "TCell", "TRest"] := by decide
  have whole := (substitute_typeForm distinct
    [.generic (Catalog.dotted "Row") (bareArguments (.name (Catalog.dotted "TCell")) []) .none,
      .array (.name (Catalog.dotted "TKey")) 0] unapplied).1
  exact ⟨distinct, unapplied, whole.trans (by decide)⟩

end Substitution

end Typeahead
