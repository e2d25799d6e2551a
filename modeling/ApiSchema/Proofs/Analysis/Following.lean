import ApiSchema.Proofs.Analysis.Collection
import ApiSchema.Proofs.Analysis.Trails
import ApiSchema.Proofs.Schema.OfDocument

/-! Schemas that the analysis has accepted: of a source, of a document, or of what was accepted before.
A type of such a schema is followed through suffixes and references in a bounded number of steps to a
primitive type, a struct or an enum. It never comes back to itself, and whatever asks for the type behind
a reference is answered. -/

namespace ApiSchema.Schema

def behind? (s : Schema) : TypeUse → Option TypeUse
  | ⟨_ :: suffixes, base⟩ => some ⟨suffixes, base⟩
  | ⟨[], .reference name _⟩ => (s.definition? name).map (·.type)
  | _ => none

def follow (s : Schema) : (steps : Nat) → TypeUse → Option TypeUse
  | 0, t => some t
  | n + 1, t => (s.behind? t).bind (s.follow n)

structure IsEnd (t : TypeUse) : Prop where
  bare : t.suffixes = []
  other : ∀ name location, t.base ≠ .reference name location

/-- What the analysis can be given: a tree, a document, or what it has accepted before. -/
inductive Submitted : Schema → Prop where
  | tree (tree : SchemaTree) : Submitted (ofTree tree)
  | document (d : Document) : Submitted (ofDocument d)
  | again {s final} (submitted : Submitted s) (accepted : s.analyse = .ok final) : Submitted final

def Passed (final : Schema) : Prop := ∃ s : Schema, s.Submitted ∧ s.analyse = .ok final

variable {s named expanded final : Schema} {t u : TypeUse} {ds : List Definition}

theorem Trail.of_same_types (same : SameTypes s final) {base : TypeBase} {ds : List Definition}
    (trail : s.Trail base ds) : final.Trail base ds := by
  induction trail with
  | primitive => exact .primitive
  | struct => exact .struct
  | enum => exact .enum
  | reference defined _ ih => exact .reference ((same.definition? _).trans defined) ih

namespace Accepted

theorem trails (accepted : Accepted s named expanded final) (grounded : s.Grounded)
    {base : TypeBase} (known : final.Known base) : ∃ ds, final.Trail base ds := by
  obtain ⟨ds, trail⟩ := exists_trail (accepted.expanded_bound grounded) accepted.recursions
    (accepted.expanded_known known)
  exact ⟨ds, trail.of_same_types accepted.same_types⟩

theorem resolved (accepted : Accepted s named expanded final) (grounded : s.Grounded) :
    final.Resolved := by
  rw [accepted.final]
  exact collect_resolved (resolved_of_bound (accepted.expanded_bound grounded) accepted.recursions)

end Accepted

/-- A schema that the analysis has accepted. -/
inductive Analysed : Schema → Prop where
  | source {files : FileTree} {file source : String} {tree : SchemaTree} {result : Schema}
    (parsed : SchemaTree.parse files file source = .ok tree)
    (accepted : (ofTree tree).analyse = .ok result) : Analysed result
  | document {d : Document} {result : Schema} (accepted : (ofDocument d).analyse = .ok result) :
    Analysed result
  | again {before result : Schema} (analysed : Analysed before)
    (accepted : before.analyse = .ok result) : Analysed result

/-- What the analysis makes of a source without imports, if it accepts it. -/
def analysed? (source : String) : Option Schema := do
  let tree ← (SchemaTree.parse ⟨[], []⟩ "-" source).toOption
  (ofTree tree).analyse.toOption

theorem analysed_of_some {source : String} (found : analysed? source = some final) :
    final.Analysed := by
  obtain ⟨tree, parsed, accepted⟩ := Option.bind_eq_some_iff.mp found
  exact .source (ok_of_to_option parsed) (ok_of_to_option accepted)

theorem Analysed.accepted (analysed : final.Analysed) :
    ∃ s named expanded, s.Grounded ∧ Accepted s named expanded final := by
  induction analysed with
  | @source _ _ _ tree _ _ accepted =>
    obtain ⟨named, expanded, stages⟩ := accepted_of_analyse accepted
    exact ⟨_, named, expanded, (treelike_of_tree tree).grounded, stages⟩
  | @document d _ accepted =>
    obtain ⟨named, expanded, stages⟩ := accepted_of_analyse accepted
    exact ⟨_, named, expanded, grounded_of_document d, stages⟩
  | again _ accepted ih =>
    obtain ⟨_, _, before, _, earlier⟩ := ih
    obtain ⟨named, expanded, stages⟩ := accepted_of_analyse accepted
    have grounded := collect_grounded earlier.grounded
    rw [← earlier.final] at grounded
    exact ⟨_, named, expanded, grounded, stages⟩

theorem Analysed.passed (analysed : final.Analysed) : final.Passed := by
  induction analysed with
  | @source _ _ _ tree _ _ accepted => exact ⟨_, .tree tree, accepted⟩
  | @document d _ accepted => exact ⟨_, .document d, accepted⟩
  | again _ accepted ih =>
    obtain ⟨_, submitted, earlier⟩ := ih
    exact ⟨_, .again submitted earlier, accepted⟩

theorem Submitted.grounded (submitted : s.Submitted) : s.Grounded := by
  induction submitted with
  | tree tree => exact (treelike_of_tree tree).grounded
  | document d => exact grounded_of_document d
  | again _ accepted _ =>
    obtain ⟨_, _, stages⟩ := accepted_of_analyse accepted
    have grounded := collect_grounded stages.grounded
    rwa [← stages.final] at grounded

theorem Passed.accepted (passed : final.Passed) :
    ∃ s named expanded, s.Grounded ∧ Accepted s named expanded final := by
  obtain ⟨s, submitted, accepted⟩ := passed
  obtain ⟨named, expanded, stages⟩ := accepted_of_analyse accepted
  exact ⟨s, named, expanded, submitted.grounded, stages⟩

theorem Passed.resolved (passed : final.Passed) : final.Resolved := by
  obtain ⟨_, _, _, grounded, stages⟩ := passed.accepted
  exact stages.resolved grounded

theorem Passed.trails (passed : final.Passed) {base : TypeBase} (known : final.Known base) :
    ∃ ds, final.Trail base ds := by
  obtain ⟨_, _, _, grounded, stages⟩ := passed.accepted
  exact stages.trails grounded known

section Steps

theorem follow_add (m n : Nat) : s.follow (m + n) t = (s.follow m t).bind (s.follow n) := by
  induction m generalizing t with
  | zero => rw [Nat.zero_add]; rfl
  | succ m ih =>
    rw [Nat.succ_add]
    simp only [follow]
    cases s.behind? t with
    | none => rfl
    | some u => exact ih

theorem follow_suffixes (suffixes : List Suffix) (base : TypeBase) (n : Nat) :
    s.follow (suffixes.length + n) ⟨suffixes, base⟩ = s.follow n ⟨[], base⟩ := by
  induction suffixes with
  | nil => rw [List.length_nil, Nat.zero_add]
  | cons suffix rest ih =>
    rw [List.length_cons, Nat.add_right_comm]
    exact ih

theorem IsEnd.nothing_behind (ended : IsEnd t) : s.behind? t = none := by
  obtain ⟨suffixes, base⟩ := t
  obtain ⟨rfl, other⟩ := ended
  cases base with
  | reference name location => exact absurd rfl (other name location)
  | primitive kind => rfl
  | struct id => rfl
  | enum id => rfl

def stepsAhead (t : TypeUse) (ds : List Definition) : Nat :=
  t.suffixes.length + total (ds.map (·.type.suffixes.length + 1))

theorem follow_trail {base : TypeBase} (trail : s.Trail base ds) (suffixes : List Suffix) :
    ∃ u, s.follow (stepsAhead ⟨suffixes, base⟩ ds) ⟨suffixes, base⟩ = some u ∧ IsEnd u := by
  unfold stepsAhead
  rw [follow_suffixes]
  induction trail generalizing suffixes with
  | primitive => exact ⟨_, rfl, rfl, nofun⟩
  | struct => exact ⟨_, rfl, rfl, nofun⟩
  | enum => exact ⟨_, rfl, rfl, nofun⟩
  | @reference name location d ds defined rest ih =>
    obtain ⟨u, followed, ended⟩ := ih d.type.suffixes
    refine ⟨u, ?_, ended⟩
    rw [List.map_cons, total_cons, Nat.add_right_comm]
    simp only [follow, behind?, defined, Option.map_some, Option.bind_some]
    rw [← followed]
    exact follow_suffixes d.type.suffixes d.type.base _

theorem follow_ne_self {k n : Nat} (followed : s.follow k t = some u) (ended : IsEnd u)
    (steps : 0 < n) : s.follow n t ≠ some t := by
  intro circle
  have around : ∀ rounds, s.follow (rounds * n) t = some t := by
    intro rounds
    induction rounds with
    | zero => rw [Nat.zero_mul]; rfl
    | succ rounds ih =>
      rw [Nat.succ_mul, follow_add, ih]
      exact circle
  have far : k < (k + 1) * n := Nat.lt_of_lt_of_le (Nat.lt_succ_self k) (Nat.le_mul_of_pos_right _ steps)
  obtain ⟨more, same⟩ := Nat.exists_eq_add_of_lt far
  have stuck : s.follow ((k + 1) * n) t = none := by
    rw [same, Nat.add_assoc, follow_add, followed]
    simp only [Option.bind_some, follow, ended.nothing_behind, Option.bind_none]
  rw [around] at stuck
  cases stuck

end Steps

def stepBound (s : Schema) : Nat := total (s.definitions.map (·.type.suffixes.length + 1))

/-- Every type behind a declaration can be followed to its end, and every reference to a type. -/
structure Followable (s : Schema) : Prop where
  ends : ∀ t, s.Known t.base → ∃ n ≤ t.suffixes.length + s.stepBound, ∃ u,
    s.follow n t = some u ∧ IsEnd u
  acyclic : ∀ t, s.Known t.base → ∀ n, 0 < n → s.follow n t ≠ some t
  resolves : ∀ name location, s.Known (.reference name location) →
    ∃ t, s.resolve name = .ok t ∧ ∀ next place, t ≠ ⟨[], .reference next place⟩

theorem Passed.followable (passed : final.Passed) : final.Followable := by
  have ends : ∀ t, final.Known t.base → ∃ n ≤ t.suffixes.length + final.stepBound, ∃ u,
      final.follow n t = some u ∧ IsEnd u := by
    intro t known
    obtain ⟨ds, trail⟩ := passed.trails known
    obtain ⟨u, followed, ended⟩ := follow_trail trail t.suffixes
    refine ⟨_, ?_, u, followed, ended⟩
    exact Nat.add_le_add_left (trail.total_le (·.type.suffixes.length + 1)) _
  refine ⟨ends, fun t known n steps => ?_, fun name location known => ?_⟩
  · obtain ⟨_, _, u, followed, ended⟩ := ends t known
    exact follow_ne_self followed ended steps
  · obtain ⟨t, resolved⟩ := passed.resolved name location known
    obtain ⟨_, other⟩ := stands_subject (t := ⟨[], .reference name location⟩) passed.resolved known
    have subject : final.subject ⟨[], .reference name location⟩ = t := by
      rw [Schema.subject, unwrap, resolved]
    rw [subject] at other
    exact ⟨t, resolved, other⟩

theorem unwrap_subject (resolved : s.Resolved) (known : s.Known t.base) :
    s.unwrap t = .ok (s.subject t) := by
  obtain ⟨u, unwrapped⟩ := unwrap_ok fun name location same => resolved name location (same ▸ known)
  rw [subject, unwrapped]

theorem Submitted.analyse_ne_unresolved (submitted : s.Submitted) (e : ResolveError) :
    s.analyse ≠ .error (.unresolved e) := by
  intro failed
  have grounded := submitted.grounded.add_fatal
  rw [analyse_eq] at failed
  cases outcome : s.expanded with
  | error other =>
    rw [outcome] at failed
    cases failed
    obtain ⟨_, equal⟩ := expanded_judges grounded _ outcome
    cases equal
  | ok expanded =>
    have cases := completed_cases (bound_of_expanded grounded outcome)
    rw [outcome] at failed
    change expanded.completed = _ at failed
    rw [failed] at cases
    rcases cases with ⟨_, equal⟩ | ⟨equal, _⟩ <;> cases equal

end ApiSchema.Schema
