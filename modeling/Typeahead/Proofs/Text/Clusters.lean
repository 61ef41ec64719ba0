import Typeahead.Proofs.Text.AsciiCase
import Typeahead.Text.Cluster

namespace Typeahead.Text

theorem ignoresCase_clusterClass : IgnoresCase clusterClass := ignoresCase (by decide +kernel)

/-- The part of a cluster that a text ends with, behind a part of one. -/
def clusterAfter (cluster : List ClusterClass) : List Char → List ClusterClass
  | [] => cluster
  | c :: cs =>
    let k := clusterClass c
    clusterAfter (if ClusterClass.joins cluster k then k :: cluster else [k]) cs

theorem headsAfter_append (cluster : List ClusterClass) (xs ys : List Char) :
    headsAfter cluster (xs ++ ys) = headsAfter cluster xs ++ headsAfter (clusterAfter cluster xs) ys := by
  induction xs generalizing cluster with
  | nil => rfl
  | cons c xs ih =>
    simp only [List.cons_append, headsAfter, clusterAfter]
    split
    · exact ih _
    · rw [ih, List.cons_append]

theorem head?_clusterAfter_concat (cluster : List ClusterClass) (xs : List Char) (c : Char) :
    (clusterAfter cluster (xs ++ [c])).head? = some (clusterClass c) := by
  induction xs generalizing cluster with
  | nil =>
    simp only [List.nil_append, clusterAfter]
    split <;> rfl
  | cons d xs ih => exact ih _

/-- Only a mark joins a space or a letter of ASCII, whatever stands before that. -/
theorem joins_other {before : List ClusterClass} {next : ClusterClass} (begins : next.isTrailing = false) :
    ClusterClass.joins (.other :: before) next = false := by
  simp only [ClusterClass.joins, begins]
  cases next <;> rfl

/-- The text begins with a mark. -/
def BeginsWithMark (cs : List Char) : Prop := ∃ c ∈ cs.head?, (clusterClass c).isTrailing = true

instance (cs : List Char) : Decidable (BeginsWithMark cs) :=
  decidable_of_iff (cs.head?.any fun c => (clusterClass c).isTrailing) (by simp [BeginsWithMark, Option.any_eq_true])

theorem headsAfter_other {before : List ClusterClass} {cs : List Char} (begins : ¬ BeginsWithMark cs) :
    headsAfter (.other :: before) cs = clusterHeads cs := by
  cases cs with
  | nil => rfl
  | cons c cs =>
    have apart : (clusterClass c).isTrailing = false := by
      rw [Bool.eq_false_iff]
      exact fun mark => begins ⟨c, rfl, mark⟩
    have alone : ClusterClass.joins [] (clusterClass c) = false := rfl
    rw [clusterHeads, headsAfter, headsAfter, joins_other apart, alone]
    rfl

/-- A text keeps its clusters inside another one, at the start or behind a space. -/
theorem clusterHeads_sublist_append {before : List Char} (front : before = [] ∨ before.getLast? = some ' ')
    (cs after : List Char) (begins : ¬ BeginsWithMark cs) :
    (clusterHeads cs).Sublist (clusterHeads (before ++ (cs ++ after))) := by
  have own : (clusterHeads cs).Sublist (clusterHeads (cs ++ after)) := by
    rw [clusterHeads, clusterHeads, headsAfter_append]
    exact List.sublist_append_left ..
  rcases front with rfl | space
  · exact own
  · obtain ⟨earlier, rfl⟩ := List.getLast?_eq_some_iff.mp space
    obtain ⟨cluster, state⟩ : ∃ cluster, clusterAfter [] (earlier ++ [' ']) = .other :: cluster :=
      List.head?_eq_some_iff.mp (head?_clusterAfter_concat [] earlier ' ')
    have behind : ¬ BeginsWithMark (cs ++ after) ∨ cs = [] := by
      cases cs with
      | nil => exact .inr rfl
      | cons c cs => exact .inl begins
    rcases behind with behind | rfl
    · have split : clusterHeads (earlier ++ [' '] ++ (cs ++ after)) =
          headsAfter [] (earlier ++ [' ']) ++ clusterHeads (cs ++ after) := by
        rw [clusterHeads, headsAfter_append, state, headsAfter_other behind]
      rw [split]
      exact own.trans (List.sublist_append_right ..)
    · exact List.nil_sublist _

theorem map_toLower_headsAfter (cluster : List ClusterClass) {a b : List Char}
    (same : a.map Char.toLower = b.map Char.toLower) :
    (headsAfter cluster a).map Char.toLower = (headsAfter cluster b).map Char.toLower := by
  induction a generalizing b cluster with
  | nil =>
    rw [List.map_nil, eq_comm, List.map_eq_nil_iff] at same
    rw [same]
  | cons c a ih =>
    cases b with
    | nil => simp at same
    | cons d b =>
      rw [List.map_cons, List.map_cons] at same
      obtain ⟨first, others⟩ := List.cons.inj same
      have alike : clusterClass c = clusterClass d := by
        rw [← ignoresCase_clusterClass c, first, ignoresCase_clusterClass d]
      simp only [headsAfter, alike]
      split
      · exact ih _ others
      · rw [List.map_cons, List.map_cons, first, ih _ others]

theorem clusterClass_ascii : ∀ c : Char, c.toNat < 128 →
    clusterClass c ∈ [.carriageReturn, .lineFeed, .control, .other] ∧
      (clusterClass c = .carriageReturn → c = '\r') ∧ (clusterClass c = .lineFeed → c = '\n') :=
  forall_ascii (by decide +kernel)

theorem joins_ascii {c d : Char} (first : c.toNat < 128) (second : d.toNat < 128)
    (joined : ClusterClass.joins [clusterClass c] (clusterClass d) = true) : c = '\r' ∧ d = '\n' := by
  have pairs : ∀ k ∈ [ClusterClass.carriageReturn, .lineFeed, .control, .other],
      ∀ next ∈ [ClusterClass.carriageReturn, .lineFeed, .control, .other],
        ClusterClass.joins [k] next = true → k = .carriageReturn ∧ next = .lineFeed := by decide
  obtain ⟨before, isReturn, -⟩ := clusterClass_ascii c first
  obtain ⟨behind, -, isLineFeed⟩ := clusterClass_ascii d second
  obtain ⟨atReturn, atLineFeed⟩ := pairs _ before _ behind joined
  exact ⟨isReturn atReturn, isLineFeed atLineFeed⟩

/-- In ASCII every character begins a cluster, if no carriage return stands in front of a line feed. -/
theorem clusterHeads_ascii {cs : List Char} (ascii : ∀ c ∈ cs, c.toNat < 128) (noLineEnd : ¬ ['\r', '\n'] <:+: cs) :
    clusterHeads cs = cs := by
  have behind (c : Char) (rest : List Char) (ascii : ∀ d ∈ c :: rest, d.toNat < 128)
      (noLineEnd : ¬ ['\r', '\n'] <:+: c :: rest) : headsAfter [clusterClass c] rest = rest := by
    induction rest generalizing c with
    | nil => rfl
    | cons d rest ih =>
      obtain ⟨first, others⟩ := List.forall_mem_cons.mp ascii
      have apart : ¬ ClusterClass.joins [clusterClass c] (clusterClass d) = true := by
        intro joined
        obtain ⟨rfl, rfl⟩ := joins_ascii first (others d List.mem_cons_self) joined
        exact noLineEnd (List.prefix_append ['\r', '\n'] rest).isInfix
      have further : ¬ ['\r', '\n'] <:+: d :: rest := fun inside => noLineEnd (List.infix_cons inside)
      rw [headsAfter, if_neg apart, ih d others further]
  cases cs with
  | nil => rfl
  | cons c cs =>
    have whole : clusterHeads (c :: cs) = c :: headsAfter [clusterClass c] cs := rfl
    rw [whole, behind c cs ascii noLineEnd]

end Typeahead.Text
