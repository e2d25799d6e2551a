import ApiSchema.Proofs.Analysis.Checks
import ApiSchema.Proofs.Analysis.Twins

/-! The analysis of a schema with its definitions in another order. It comes to the same, unless a
struct absorbs itself: then it depends on the order whether a spread of it is met too early. -/

namespace ApiSchema.Schema

variable {s g g' x x' : Schema}

theorem add_fatal_permuted (s : Schema) (definitions : List Definition) :
    { s with definitions }.addFatal = { s.addFatal with definitions } := by
  unfold addFatal
  split <;> rfl

theorem Treelike.permuted (treelike : s.Treelike) {definitions : List Definition}
    (perm : definitions.Perm s.definitions) : Treelike { s with definitions } := by
  have agrees : ∀ x, s.Agrees { s with definitions } x := by
    intro x
    cases x <;> rfl
  have parts : ∀ depth, (declaredParts { s with definitions } depth).Perm (s.declaredParts depth) := by
    intro depth
    simp only [declaredParts, parts_eq_of_agrees agrees, operation_parts_eq_of_agrees agrees]
    exact ((perm.flatMap_right _).append_right _).append_left _
  refine ⟨fun depth => (parts depth).nodup_iff.mpr (treelike.once depth), fun depth x inside => ?_⟩
  have recorded := treelike.recorded depth x ((parts depth).mem_iff.mp inside)
  cases x <;> exact recorded

theorem WellNamed.not_clashes (names : g.WellNamed) : ¬ g.Clashes := by
  rintro ⟨path, other, base, base', called, called', nested, nested', same, differ⟩
  have equal : base = base' := by
    refine names.apart base base' called.known called'.known nested nested' ?_
    rw [names.called path base called nested, names.called other base' called' nested', same]
  exact differ (equal ▸ .refl base)

theorem redeclared_permuted (passed : s.checkRedeclarations = .ok ()) {definitions : List Definition}
    (perm : definitions.Perm s.definitions) :
    checkRedeclarations { s with definitions } = .ok () := by
  have revises : s.Revises { s with definitions } := (Revises.refl s).redeclare _ _ _
  refine check_redeclarations_ok.mpr fun d member d' member' named => ?_
  have same := check_redeclarations_ok.mp passed d (perm.mem_iff.mp member) d' (perm.mem_iff.mp member')
    named
  refine ⟨same.1, ?_⟩
  rw [revises.nesting_bound, revises.shape, revises.shape]
  exact same.2

theorem named_permuted (treelike : s.Treelike) (passed : s.checkRedeclarations = .ok ())
    (named : s.nameTypes = .ok g) {definitions : List Definition}
    (perm : definitions.Perm s.definitions) :
    ∃ g', nameTypes { s with definitions } = .ok g' ∧ g.Alike g' := by
  have reordered := alike_of_perm treelike.grounded passed perm
  have renamed := (names_of_name_types treelike.grounded named).alike
  have outcome := name_types_within (reordered.grounded treelike.grounded)
  cases named' : nameTypes { s with definitions } with
  | ok g' =>
    rw [named'] at outcome
    exact ⟨g', rfl, renamed.symm.trans (reordered.trans outcome.alike)⟩
  | error e =>
    rw [named'] at outcome
    have clashes := renamed.clashes (reordered.symm.clashes outcome.2)
    exact absurd clashes (well_named_of_name_types treelike named).not_clashes

theorem Twins.enters {base base' : TypeBase} (twins : g.Twins g' base base') {u : StructId}
    (enters : g.Enters base u) : ∃ u', g'.Enters base' u' ∧ g.Twins g' (.struct u) (.struct u') := by
  cases enters with
  | struct =>
    obtain ⟨u', rfl, _⟩ := twins.alike.struct
    exact ⟨u', .struct, twins⟩
  | value member data =>
    obtain ⟨e', rfl, _⟩ := twins.alike.enum
    obtain ⟨v', member', value⟩ := exists_right twins.values member
    obtain ⟨u', data', twins'⟩ := exists_of_rel value.data data
    exact ⟨u', .value member' data', twins'⟩

theorem Twins.absorbs (alike : g.Alike g') {t u : StructId} {t' : StructId}
    (twins : g.Twins g' (.struct t) (.struct t')) (absorbs : g.Absorbs t u) :
    ∃ u', g'.Absorbs t' u' ∧ g.Twins g' (.struct u) (.struct u') := by
  rcases absorbs with ⟨name, nameLocation, location, member, resolved⟩ | ⟨id, held, enters⟩
  · obtain ⟨_, member', matched⟩ := exists_right twins.members member
    cases matched with
    | spread =>
      obtain ⟨u', resolved', twins'⟩ := alike.spread_twins resolved
      exact ⟨u', .inl ⟨_, _, _, member', resolved'⟩, twins'⟩
  · have matched : ∃ id', g'.Holds t' id' ∧ g.FieldTwins g' id id' := by
      rcases held with written | held
      · obtain ⟨_, written', matched⟩ := exists_right twins.members written
        cases matched with
        | field matched => exact ⟨_, .inl written', matched⟩
      · obtain ⟨id', held', matched⟩ := exists_right twins.fields held
        exact ⟨id', .inr held', matched⟩
    obtain ⟨id', held', field⟩ := matched
    obtain ⟨u', enters', twins'⟩ := field.base.enters enters
    exact ⟨u', .inr ⟨id', held', enters'⟩, twins'⟩

theorem Twins.unique (names : g.WellNamed) (names' : g'.NamedByPaths) {t u t' : StructId}
    (first : g.Twins g' (.struct t) (.struct t')) (second : g.Twins g' (.struct u) (.struct t')) :
    t = u := by
  have same := (first.base_name names.called names').trans (second.base_name names.called names').symm
  cases names.apart _ _ (first.known trivial) (second.known trivial) trivial trivial same
  rfl

/-- A struct absorbs itself if its twin does. -/
theorem Twins.cycle (alike : g.Alike g') (names : g.WellNamed) (names' : g'.NamedByPaths)
    {t t' : StructId} (twins : g.Twins g' (.struct t) (.struct t'))
    (cycle : Relation.TransGen g'.Absorbs t' t') : Relation.TransGen g.Absorbs t t := by
  have follow : ∀ {u'}, Relation.TransGen g'.Absorbs t' u' →
      ∃ u, Relation.TransGen g.Absorbs t u ∧ g.Twins g' (.struct u) (.struct u') := by
    intro u' way
    induction way with
    | single step =>
      obtain ⟨u, step, further⟩ := twins.symm.absorbs alike.symm step
      exact ⟨u, .single step, further.symm⟩
    | tail _ step ih =>
      obtain ⟨v, way, before⟩ := ih
      obtain ⟨u, step, further⟩ := before.symm.absorbs alike.symm step
      exact ⟨u, way.tail step, further.symm⟩
  obtain ⟨u, way, back⟩ := follow cycle
  exact twins.unique names names' back ▸ way

theorem Alike.twin (alike : g.Alike g') {base' : TypeBase} (known : g'.Known base')
    (nested : base'.IsNested) : ∃ base, g.Twins g' base base' := by
  obtain ⟨path, called'⟩ := known.called nested
  obtain ⟨base, called, same⟩ := alike.symm.called called'
  exact ⟨base, .of_called same.symm called called'⟩

theorem Alike.aimed (alike : g.Alike g') (aimed : ∀ members, g.Writes members → g.Aimed members)
    {members' : List Member} (writes : g'.Writes members') : g'.Aimed members' := by
  have matched : ∃ members, g.Writes members ∧
      List.Forall₂ (g.MemberResembles g') members members' := by
    cases writes with
    | @struct t' known =>
      obtain ⟨base, twins⟩ := alike.twin known trivial
      obtain ⟨t, rfl, _⟩ := twins.symm.alike.struct
      obtain ⟨_, same, members, _⟩ := twins.alike.struct
      cases same
      exact ⟨_, .struct (twins.known trivial), members⟩
    | operation member' =>
      obtain ⟨o, member, same⟩ := exists_left alike.operations member'
      exact ⟨_, .operation member, same.members⟩
  obtain ⟨members, writes, matched⟩ := matched
  intro name nameLocation location member'
  obtain ⟨_, member, same⟩ := exists_left matched member'
  cases same with
  | spread =>
    obtain ⟨u, resolved⟩ := aimed members writes _ _ _ member
    obtain ⟨u', resolved', _⟩ := alike.spread_twins resolved
    exact ⟨u', resolved'⟩

/-- Where schemas of like declarations are not expanded to the same, a struct absorbs itself. -/
theorem expanded_alike (alike : g.Alike g') (names : g.WellNamed) (names' : g'.NamedByPaths)
    (spreads : g.expandSpreads = .ok x) :
    (∃ x', g'.expandSpreads = .ok x' ∧ Parallel g g' x x') ∨
      ∃ name location, g'.expandSpreads = .error (.semantic (.cyclicSpread name location)) ∧
        ∃ t, Relation.TransGen g.Absorbs t t := by
  have gathers := gathers_of_expanded spreads
  cases outcome : g'.expandSpreads with
  | ok x' =>
    exact .inl ⟨x', rfl, alike, expands_of_ok spreads, gathers, expands_of_ok outcome,
      gathers_of_expanded outcome, names.called, names'⟩
  | error e =>
    right
    obtain ⟨fault, rfl⟩ := expand_spreads_error outcome
    cases expand_spreads_fault outcome with
    | @cyclic name location t' known cycle =>
      obtain ⟨base, twins⟩ := alike.twin known trivial
      obtain ⟨t, rfl, _⟩ := twins.symm.alike.struct
      exact ⟨name, location, rfl, t, twins.cycle alike names names' cycle⟩
    | astray writes astray => exact absurd (alike.aimed gathers.aimed writes) astray

namespace Accepted

variable {named expanded final : Schema}

theorem completes (accepted : Accepted s named expanded final) :
    expanded.completed = .ok final := by
  simp only [completed, accepted.emptiness, accepted.recursions, accepted.notes, accepted.repetition,
    accepted.final]
  rfl

/-- An accepted schema is accepted with its definitions in another order, as a schema of the same
names, unless a struct absorbs itself. -/
theorem permuted (accepted : Accepted s named expanded final) (treelike : s.Treelike)
    {definitions : List Definition} (perm : definitions.Perm s.definitions) :
    (∃ named' expanded' final', analyse { s with definitions } = .ok final' ∧
      Accepted { s with definitions } named' expanded' final' ∧
        Parallel named named' expanded expanded') ∨
      ∃ name location,
        analyse { s with definitions } = .error (.semantic (.cyclicSpread name location)) ∧
          ∃ t, Relation.TransGen named.Absorbs t t := by
  rw [← s.add_fatal_same_types.definitions] at perm
  have treelike := treelike.add_fatal
  obtain ⟨named', names', alike⟩ := named_permuted treelike accepted.redeclared accepted.names perm
  have renamed := names_of_name_types treelike.grounded accepted.names
  have wellNamed := well_named_of_name_types treelike accepted.names
  have wellNamed' := well_named_of_name_types (treelike.permuted perm) names'
  have redeclared := redeclared_permuted accepted.redeclared perm
  have references := alike.check_references (renamed.grounded treelike.grounded) accepted.references
  have secrets := alike.check_secrets accepted.secrets
  have analysed : analyse { s with definitions } = named'.expandSpreads.bind completed := by
    rw [analyse_eq]
    simp only [Schema.expanded, Schema.declared, add_fatal_permuted, redeclared, names', references,
      bind, Except.bind, pure, Except.pure, secrets]
  rcases expanded_alike alike wellNamed wellNamed'.called accepted.spreads with
    ⟨expanded', spreads', both⟩ | ⟨name, location, failed, cycle⟩
  · left
    have passes := both.expanded.completed accepted.completes
    have again : analyse { s with definitions } = .ok expanded'.collectTypes := by
      rw [analysed, spreads']
      exact passes
    obtain ⟨other, expanded'', stages⟩ := accepted_of_analyse again
    have names := stages.names
    rw [add_fatal_permuted, names'] at names
    cases names
    cases spreads'.symm.trans stages.spreads
    exact ⟨named', expanded', _, again, stages, both⟩
  · right
    exact ⟨name, location, by rw [analysed, failed]; rfl, cycle⟩

end Accepted

end ApiSchema.Schema
