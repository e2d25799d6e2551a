import ApiSchema.Proofs.Analysis.Form
import ApiSchema.Proofs.Analysis.Renaming
import ApiSchema.Tree.Parser

/-! Analysing an accepted schema again. It passes unchanged if all types have the names of the paths
that lead to them; a spread of a field with a type written in it makes another path to that type. -/

namespace ApiSchema.Schema

variable {s s' : Schema}

namespace SameTypes

theorem reaches_name (same : SameTypes s s') (name : String) (fuel : Nat) :
    s'.reachesName name fuel = s.reachesName name fuel := by
  induction fuel with
  | zero => rfl
  | succ fuel ih =>
    funext base
    cases base with
    | primitive kind => rfl
    | reference other location => simp only [reachesName, same.definition?, ih]
    | struct t => simp only [reachesName, same.struct, same.field, ih]
    | enum e => simp only [reachesName, same.enum, ih]

theorem requires_name (same : SameTypes s s') (name : String) (fuel : Nat) :
    s'.requiresName name fuel = s.requiresName name fuel := by
  induction fuel with
  | zero => rfl
  | succ fuel ih =>
    funext ⟨suffixes, base⟩
    cases suffixes with
    | cons => rfl
    | nil =>
      cases base with
      | primitive kind => rfl
      | reference other location => simp only [requiresName, same.definition?, ih]
      | struct t => simp only [requiresName, same.struct, same.field, ih]
      | enum e => simp only [requiresName, same.enum, ih]

theorem check_recursions (same : SameTypes s s') : s'.checkRecursions = s.checkRecursions := by
  have bound : s'.recursionBound = s.recursionBound := by
    rw [recursionBound, recursionBound, same.definitions, same.nesting_bound]
  have recursive : s'.isRecursive = s.isRecursive := by
    funext d
    rw [isRecursive, isRecursive, bound, same.reaches_name]
  have endless : s'.isEndless = s.isEndless := by
    funext d
    rw [isEndless, isEndless, bound, same.requires_name]
  rw [checkRecursions, checkRecursions, same.definitions, recursive, endless]

theorem check_not_empty (same : SameTypes s s') (visits : List Visit) :
    s'.checkNotEmpty visits = s.checkNotEmpty visits := by
  induction visits with
  | nil => rfl
  | cons v rest ih =>
    cases v with
    | struct t => simp only [checkNotEmpty, same.struct, ih]
    | enum e => simp only [checkNotEmpty, same.enum, ih]
    | _ => exact ih

end SameTypes

theorem collect_again (s : Schema) : s.collectTypes.collectTypes = s.collectTypes := by
  rw [collectTypes, collect_walk]
  rfl

theorem collect_check_emptiness (s : Schema) :
    s.collectTypes.checkEmptiness = s.checkEmptiness := by
  rw [checkEmptiness, checkEmptiness, collect_walk, s.collect_same_types.check_not_empty]

theorem collect_called {path : List String} {base : TypeBase}
    (called : s.collectTypes.Called path base) : s.Called path base := by
  induction called with
  | error member => exact .error member
  | definition member => exact .definition member
  | argument member held => exact .argument member held
  | returns member => exact .returns member
  | inside _ nests ih =>
    refine .inside ih ?_
    cases nests with
    | field held => exact .field held
    | value member data => exact .value member data

theorem mem_add_fatal (s : Schema) : ∃ e ∈ s.addFatal.errors, e.name = "Fatal" := by
  unfold addFatal
  split
  · next known => simpa using known
  · exact ⟨_, List.mem_append_right _ (List.mem_singleton_self _), rfl⟩

theorem add_fatal_of_mem {e : ErrorKind} (member : e ∈ s.errors) (named : e.name = "Fatal") :
    s.addFatal = s :=
  if_pos (List.any_eq_true.mpr ⟨e, member, by simpa using named⟩)

/-- Where spreads bring only fields with plain types, they make no new path to a struct or enum. -/
theorem Gains.called (gains : s.Gains s') (expands : s.Expands s')
    (plain : ∀ id ∈ s.brought, ¬ (s.field id).type.base.IsNested) {path : List String}
    {base : TypeBase} (called : s'.Called path base) (nested : base.IsNested) :
    s.Called path base := by
  have inherits := expands.inherits
  have field : ∀ id, s'.field id = s.field id := inherits.field
  induction called with
  | error member =>
    have errors : s'.errors = s.errors := inherits.errors
    exact .error (errors ▸ member)
  | definition member =>
    have definitions : s'.definitions = s.definitions := inherits.definitions
    exact .definition (definitions ▸ member)
  | @argument o' id member held =>
    obtain ⟨o, declared, name, _, given⟩ := gains.operations o' member
    rw [name]
    rw [field] at nested ⊢
    rcases given id held with own | brought
    · exact .argument declared own
    · exact absurd nested (plain id brought)
  | @returns o' member =>
    obtain ⟨o, declared, name, returns, _⟩ := gains.operations o' member
    rw [name, returns]
    exact .returns declared
  | @inside path base label part called nests ih =>
    cases nests with
    | @field t id held =>
      rw [field] at nested ⊢
      rcases gains.structs t id called.known held with own | brought
      · exact .inside (ih trivial) (.field own)
      · exact absurd nested (plain id brought)
    | @value e v t member data =>
      have enum : s'.enum e = s.enum e := inherits.enum e
      exact .inside (ih trivial) (.value (enum ▸ member) data)

namespace Accepted

variable {named expanded final : Schema}

theorem add_fatal (accepted : Accepted s named expanded final) (grounded : s.Grounded) :
    final.addFatal = final := by
  have renamed := names_of_name_types grounded.add_fatal accepted.names
  obtain ⟨e, member, same⟩ := s.mem_add_fatal
  obtain ⟨e', member', replaced⟩ := exists_right renamed.errors member
  have errors : final.errors = named.errors := by
    rw [accepted.final]
    exact accepted.expands.inherits.errors
  exact add_fatal_of_mem (errors ▸ member') (replaced.name.trans same)

theorem redeclared_again (accepted : Accepted s named expanded final) (treelike : s.Treelike) :
    final.checkRedeclarations = .ok () := by
  refine check_redeclarations_ok.mpr fun d member d' member' same => ?_
  obtain ⟨suffixes, alike⟩ := accepted.alike_of_name treelike member member' same
  exact ⟨suffixes, (alike final).2 _⟩

theorem well_named (accepted : Accepted s named expanded final) (treelike : s.Treelike)
    (called : final.NamedByPaths) : final.WellNamed where
  apart base other known known' nested nested' same := by
    have names := well_named_of_name_types treelike.add_fatal accepted.names
    rw [accepted.base_name, accepted.base_name] at same
    exact names.apart base other (accepted.known known) (accepted.known known') nested nested' same
  called := called

theorem secrets_again (accepted : Accepted s named expanded final) :
    final.checkSecrets = .ok () := by
  cases outcome : final.checkSecrets with
  | ok _ => rfl
  | error e =>
    obtain ⟨⟨o, member, exposes⟩, _⟩ := check_secrets_error outcome
    rw [accepted.final] at member
    obtain ⟨before, declared, made⟩ := exists_left accepted.expands.operations member
    have exposes := accepted.expands.exposes (accepted.same_types.exposes exposes)
    rw [made.returns] at exposes
    exact absurd exposes (not_exposes_of_check_secrets accepted.secrets declared)

theorem completed_again (accepted : Accepted s named expanded final) :
    final.completed = .ok final := by
  have emptiness : final.checkEmptiness = .ok () := by
    rw [accepted.final, collect_check_emptiness, accepted.emptiness]
  have recursions : final.checkRecursions = .ok () := by
    rw [accepted.same_types.check_recursions, accepted.recursions]
  have collected : final.collectTypes = final := by rw [accepted.final, collect_again]
  have notes : final.checkNotes = .ok () := by rw [accepted.final, accepted.notes]
  have repetition : final.checkRepetition = .ok () := by rw [accepted.final, accepted.repetition]
  simp only [completed, emptiness, recursions, collected, notes, repetition]
  rfl

/-- An accepted schema whose types have the names of their paths passes the analysis unchanged. -/
theorem analyse_again (accepted : Accepted s named expanded final) (treelike : s.Treelike)
    (called : final.NamedByPaths) : final.analyse = .ok final := by
  have grounded := accepted.final_grounded
  have names := name_types_again grounded (accepted.well_named treelike called)
  have references := (check_references_ok grounded).mpr (accepted.bound treelike.grounded)
  have declared : final.declared = .ok final := by
    simp only [Schema.declared, accepted.add_fatal treelike.grounded,
      accepted.redeclared_again treelike, names, references, bind, Except.bind]
    rfl
  have expands : final.expanded = .ok final := by
    simp only [Schema.expanded, declared, accepted.secrets_again, bind, Except.bind]
    exact expand_spreads_again accepted.spread
  rw [analyse_eq, expands]
  exact accepted.completed_again

theorem named_by_paths (accepted : Accepted s named expanded final) (treelike : s.Treelike)
    (plain : ∀ id ∈ named.brought, ¬ (named.field id).type.base.IsNested) : final.NamedByPaths := by
  intro path base called nested
  have names := well_named_of_name_types treelike.add_fatal accepted.names
  have gains := gains_of_expanded accepted.spreads
  rw [accepted.final] at called
  rw [accepted.base_name]
  exact names.called path base (gains.called accepted.expands plain (collect_called called) nested)
    nested

end Accepted

/-- An accepted schema gets no further error when it is analysed again, and it is accepted unchanged
if each struct and enum in it has the name of every path to it. It has if no spread brings a field
with a struct or an enum written in it. -/
theorem analysed_again (tree : SchemaTree) {final : Schema}
    (accepted : (ofTree tree).analyse = .ok final) :
    final.addFatal = final ∧ (final.NamedByPaths → final.analyse = .ok final) ∧
      ∀ g, (ofTree tree).declared = .ok g →
        (∀ id ∈ g.brought, ¬ (g.field id).type.base.IsNested) → final.analyse = .ok final := by
  obtain ⟨named, expanded, stages⟩ := accepted_of_analyse accepted
  have treelike := treelike_of_tree tree
  refine ⟨stages.add_fatal treelike.grounded, stages.analyse_again treelike, ?_⟩
  intro g declared plain
  obtain ⟨_, names, _⟩ := named_of_declared declared
  cases names.symm.trans stages.names
  exact stages.analyse_again treelike (stages.named_by_paths treelike plain)

def visits : String :=
  "type Place \x7b city: string zip: string? \x7d\n" ++
    "type Visit \x7b ...Place notes: \x7b text: string \x7d[] \x7d\n" ++
    "fn move(...Place, load: \x7b of: Visit \x7d): Place"

theorem visits_again : ∃ tree final, SchemaTree.parse ⟨[], []⟩ "-" visits = .ok tree ∧
    (ofTree tree).analyse = .ok final ∧ final.addFatal = final ∧ final.analyse = .ok final := by
  have compiles : ((SchemaTree.parse ⟨[], []⟩ "-" visits).toOption.bind fun tree =>
      (ofTree tree).declared.toOption.map fun g => (ofTree tree).analyse.isOk &&
        decide (∀ id ∈ g.brought, ¬ (g.field id).type.base.IsNested)) = some true := by
    simp only [SchemaTree.parse_by_chars]
    decide +kernel
  obtain ⟨tree, parsed, compiles⟩ := Option.bind_eq_some_iff.mp compiles
  obtain ⟨g, declared, compiles⟩ := Option.map_eq_some_iff.mp compiles
  obtain ⟨sound, plain⟩ := (Bool.and_eq_true _ _).mp compiles
  obtain ⟨final, accepted⟩ := exists_of_is_ok sound
  obtain ⟨fatal, _, again⟩ := analysed_again tree accepted
  exact ⟨tree, final, ok_of_to_option parsed, accepted, fatal,
    again g (ok_of_to_option declared) (of_decide_eq_true plain)⟩

/-- What is written in a field of `B` is spread into `A`, beside a type of another form. -/
def overshadowed : String :=
  "type B \x7b x: \x7b y: int \x7d \x7d\n" ++
    "type A \x7b ...B \x7d\n" ++
    "type AX \x7b z: int \x7d"

/-- The type in the field has the name `BX` when the source is accepted. When it is named again it
gets the name `AX` from the path through `A`, which is then that of two types. -/
theorem overshadowed_refused :
    ((SchemaTree.parse ⟨[], []⟩ "-" overshadowed).toOption.bind fun tree =>
      (ofTree tree).analyse.toOption.map analyse) =
        some (.error (.semantic (.nameConflict ["AX"] ⟨"-", 3, 9⟩ ["A", "x"] ⟨"-", 1, 13⟩))) := by
  simp only [SchemaTree.parse_by_chars]
  decide +kernel

end ApiSchema.Schema
