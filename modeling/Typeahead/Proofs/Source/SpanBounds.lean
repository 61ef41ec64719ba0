import Typeahead.Proofs.Source.Origins

namespace Typeahead.Source

open Text

variable {P : Nat → Prop} {scan : Scan} {ts : List Token}

/-- Both ends of a span are offsets of a sort. -/
def Span.BoundedBy (P : Nat → Prop) (s : Span) : Prop := P s.start ∧ P s.stop

theorem Span.boundedBy_of {start stop : Nat} (starts : P start) (stops : P stop) :
    (Span.of start stop).BoundedBy P := by
  refine ⟨starts, ?_⟩
  change P (max stop start)
  rcases Nat.le_total stop start with le | le
  · rwa [Nat.max_eq_right le]
  · rwa [Nat.max_eq_left le]

/-- All spans of some declarations are bounded by offsets of a sort. -/
structure Declarations.BoundedBy (P : Nat → Prop) (ds : Declarations) : Prop where
  vars : ∀ v ∈ ds.vars, v.span.BoundedBy P
  methods : ∀ m ∈ ds.methods, m.span.BoundedBy P
  properties : ∀ p ∈ ds.properties, p.span.BoundedBy P
  bodies : ∀ b ∈ ds.bodies, b.span.BoundedBy P

theorem Declarations.boundedBy_empty : Declarations.BoundedBy P {} := by
  constructor <;> simp

/-- The scan ends and the tokens start at offsets of a sort. -/
structure Placed (P : Nat → Prop) (scan : Scan) (ts : List Token) : Prop where
  stop : P scan.stop
  start : ∀ t ∈ ts, P t.start

namespace Placed

theorem of_subset {later : List Token} (placed : Placed P scan ts) (inside : later ⊆ ts) : Placed P scan later :=
  ⟨placed.stop, fun t member => placed.start t (inside member)⟩

theorem of_suffix {later : List Token} (placed : Placed P scan ts) (suffix : later <:+ ts) :
    Placed P scan later := placed.of_subset suffix.subset

theorem offsetOf (placed : Placed P scan ts) : P (scan.offsetOf ts) := by
  cases ts with
  | nil => exact placed.stop
  | cons t ts => exact placed.start t (List.mem_cons_self ..)

theorem closeOffset (placed : Placed P scan ts) (kind : Bracket) : P (scan.closeOffset kind ts) :=
  (placed.of_suffix (fromCloser_suffix kind ts)).offsetOf

theorem tail {t : Token} (placed : Placed P scan (t :: ts)) : Placed P scan ts :=
  placed.of_suffix (List.suffix_cons t ts)

end Placed

theorem Span.FromToken.boundedBy {s : Span} (span : s.FromToken scan ts) (placed : Placed P scan ts) :
    s.BoundedBy P := by
  obtain ⟨t, rest, last, starts, ends, rfl⟩ := span
  have from_ := placed.of_suffix starts
  exact Span.boundedBy_of (from_.start t List.mem_cons_self) (from_.tail.of_suffix ends).offsetOf

theorem LocalOrigin.boundedBy {scope : LocalScope} {us : List Token} {v : Variable}
    (origin : LocalOrigin scan scope us v) (placed : Placed P scan us) (stops : P scope.stop) : v.span.BoundedBy P := by
  cases origin with
  | @inBlock name _ _ _ leads =>
    exact Span.boundedBy_of ((placed.of_suffix leads.suffix).start name List.mem_cons_self) stops
  | @inHeader name rest last _ _ declares ends =>
    have span : (Span.of name.start (scan.offsetOf last)).FromToken scan us := ⟨name, rest, last, declares, ends, rfl⟩
    exact span.boundedBy placed

theorem Variable.Origin.boundedBy {fields : Span} {v : Variable} (origin : v.Origin scan fields ts)
    (placed : Placed P scan ts) (body : fields.BoundedBy P) : v.span.BoundedBy P := by
  cases origin with
  | field _ holds => exact holds ▸ body
  | @parameter name code declares _ behind holds =>
    obtain ⟨starts, stops⟩ := behind.boundedBy placed
    rw [holds]
    refine Span.boundedBy_of ?_ stops
    rcases Nat.le_total name.start code.start with le | le
    · rw [Nat.min_eq_left le]
      exact placed.start name declares
    · rwa [Nat.min_eq_right le]
  | @inBlock brace inside us _ block _ within _ origin =>
    have statement := placed.of_suffix (within.trans ((List.suffix_cons brace inside).trans block))
    exact origin.boundedBy statement (statement.closeOffset .brace)

theorem Declarations.ReadFrom.boundedBy {fields : Span} {ds : Declarations} (read : ds.ReadFrom scan fields ts)
    (placed : Placed P scan ts) (body : fields.BoundedBy P) : ds.BoundedBy P where
  vars v member := (read.vars v member).boundedBy placed body
  methods m member := (read.methods m member).2.boundedBy placed
  properties p member := (read.properties p member).2.boundedBy placed
  bodies b member := (read.bodies b member).boundedBy placed

/-- Every span of the declarations of a type begins and ends at a boundary of the text. -/
theorem Declarations.boundedBy_ofType {text : List Char} {r : TypeRegion} (fits : RegionFits text r) :
    (Declarations.ofType text r).BoundedBy (IsBoundary · text) := by
  obtain ⟨region, taken⟩ := fits.body
  obtain ⟨starts, stops, -⟩ := IsBoundary.of_slice taken
  have placed : Placed (IsBoundary · text) (bodyScan text r) (bodyTokens text r) :=
    ⟨fits.isBoundary_stop, fun t member => (IsBoundary.of_slice (fits.slice_token member)).1⟩
  exact (Declarations.readFrom_ofType text r).boundedBy placed (Span.boundedBy_of starts stops)

/-- Every span of the inherited declarations does so too. -/
theorem boundedBy_inheritedDeclarations {text : List Char} {r : TypeRegion} (fits : RegionFits text r) :
    (inheritedDeclarations text r).BoundedBy (IsBoundary · text) := by
  obtain ⟨body, taken⟩ := fits.body
  obtain ⟨starts, stops, -⟩ := IsBoundary.of_slice taken
  have bases : ∀ base ∈ inheritedRegions text r, (Declarations.ofType text base).BoundedBy (IsBoundary · text) :=
    fun base isBase => Declarations.boundedBy_ofType (fits_of_mem_baseRegions isBase)
  have passedOn := passedOn_inheritedDeclarations text r
  constructor
  · intro v member
    obtain ⟨base, -, u, -, rfl⟩ := passedOn.vars v member
    exact Span.boundedBy_of starts stops
  · intro m member
    obtain ⟨base, isBase, declared⟩ := passedOn.methods m member
    exact (bases base isBase).methods m declared
  · intro p member
    obtain ⟨base, isBase, declared⟩ := passedOn.properties p member
    exact (bases base isBase).properties p declared
  · rw [passedOn.bodies]
    simp

end Typeahead.Source
