import ApiSchema.Proofs.Analysis.Notes
import ApiSchema.Proofs.Analysis.Secrecy
import ApiSchema.Proofs.Analysis.Sharing
import ApiSchema.Proofs.Text.Characters

/-! How the analysis ends: with a schema in which no type is nested in itself, with a fault, or not
at all. The last takes a type that its name has put in two places, so that it is entered once as a
part and once for a spread. -/

namespace ApiSchema.Schema

variable {s s' : Schema}

theorem check_redeclared_judges (earlier definitions : List Definition) :
    Judges (s.checkRedeclared earlier definitions) := by
  induction definitions generalizing earlier with
  | nil => exact .ok _
  | cons d rest ih =>
    unfold checkRedeclared
    split
    · exact ih _
    · split
      · exact ih _
      · exact .refuse _

theorem check_not_empty_judges (visits : List Visit) : Judges (s.checkNotEmpty visits) := by
  induction visits with
  | nil => exact .ok _
  | cons v rest ih =>
    cases v with
    | struct t =>
      simp only [checkNotEmpty]
      split
      · exact .refuse _
      · exact ih
    | enum e =>
      simp only [checkNotEmpty]
      split
      · exact .refuse _
      · exact ih
    | _ => exact ih

theorem check_repeated_judges (visits : List Visit) : Judges (s.checkRepeatedValues visits) := by
  induction visits with
  | nil => exact .ok _
  | cons v rest ih =>
    cases v with
    | enum e =>
      simp only [checkRepeatedValues]
      split
      · exact .refuse _
      · exact ih
    | _ => exact ih

theorem name_types_judges (grounded : s.Grounded) : Judges s.nameTypes := by
  intro e failed
  have outcome := name_types_within grounded
  rw [failed] at outcome
  exact outcome.1

theorem check_secrets_judges (s : Schema) : Judges s.checkSecrets := by
  intro e failed
  obtain ⟨_, path, location, rfl⟩ := check_secrets_error failed
  exact ⟨_, rfl⟩

/-- Up to the expansion of spreads the analysis always comes to an end. -/
theorem expanded_judges (grounded : s.addFatal.Grounded) : Judges s.expanded := by
  apply Judges.bind
  · apply Judges.bind (check_redeclared_judges _ _)
    intro _ _
    apply Judges.bind (name_types_judges grounded)
    intro g _
    apply Judges.bind (check_bound_judges _)
    exact fun _ _ => .ok _
  · intro g _
    apply Judges.bind (check_secrets_judges g)
    exact fun _ _ => fun e failed => expand_spreads_error failed

theorem check_emptiness_cases (s : Schema) :
    s.checkEmptiness =
      match s.checkNotEmpty s.walk.visits with
      | .error e => .error e
      | .ok _ => if s.walk.ends then .ok () else .error .endless := by
  simp only [checkEmptiness, bind, Except.bind]
  cases s.checkNotEmpty s.walk.visits <;> rfl

theorem grounded_of_check_emptiness (passed : s.checkEmptiness = .ok ()) : s.Grounded := by
  rw [check_emptiness_cases] at passed
  split at passed
  · cases passed
  · split at passed
    · next ends => exact walk_ends.mp ends
    · cases passed

/-- A type that is nested in itself is walked through without end, unless something empty is met on
the way. -/
theorem check_emptiness_endless_iff :
    s.checkEmptiness = .error .endless ↔
      ¬ s.Grounded ∧ s.checkNotEmpty s.walk.visits = .ok () := by
  rw [check_emptiness_cases, ← walk_ends]
  cases outcome : s.checkNotEmpty s.walk.visits with
  | error e =>
    obtain ⟨fault, rfl⟩ := check_not_empty_judges _ e outcome
    simp
  | ok _ => simp

theorem check_emptiness_error {e : AnalysisFailure} (failed : s.checkEmptiness = .error e) :
    IsSemantic e ∨ e = .endless := by
  rw [check_emptiness_cases] at failed
  split at failed
  · next other outcome =>
    cases failed
    exact .inl (check_not_empty_judges _ _ outcome)
  · split at failed <;> cases failed
    exact .inr rfl

theorem Expands.bound (expands : s.Expands s') (bound : s.Bound) : s'.Bound := by
  intro name location known
  rw [expands.same_types.definition?, expands.inherits.definition?]
  exact bound name location (expands.known known)

theorem collect_same_types (s : Schema) : SameTypes s s.collectTypes := ⟨rfl, rfl, rfl, rfl⟩

theorem collect_declares {base : TypeBase} (declared : s.collectTypes.Declares base) :
    s.Declares base := by
  cases declared with
  | definition member => exact .definition member
  | error member => exact .error member
  | argument member held => exact .argument member held
  | spread member held => exact .spread member held
  | returns member => exact .returns member

theorem declares_collected {base : TypeBase} (declared : s.Declares base) :
    s.collectTypes.Declares base := by
  cases declared with
  | definition member => exact .definition member
  | error member => exact .error member
  | argument member held => exact .argument member held
  | spread member held => exact .spread member held
  | returns member => exact .returns member

theorem collect_grounded (grounded : s.Grounded) : s.collectTypes.Grounded :=
  fun base declared => s.collect_same_types.acyclic (grounded base (collect_declares declared))

theorem collect_resolved (resolved : s.Resolved) : s.collectTypes.Resolved := by
  rintro name location ⟨root, declared, way⟩
  rw [s.collect_same_types.resolve]
  exact resolved name location
    ⟨root, collect_declares declared, s.collect_same_types.reaches way⟩

theorem completed_cases (bound : s.Bound) :
    match s.completed with
    | .ok final => final.Grounded
    | .error e => IsSemantic e ∨ e = .endless ∧ s.checkEmptiness = .error .endless := by
  cases emptiness : s.checkEmptiness with
  | error e =>
    simp only [completed, emptiness, bind, Except.bind]
    rcases check_emptiness_error emptiness with fault | rfl
    · exact .inl fault
    · exact .inr ⟨rfl, rfl⟩
  | ok _ =>
    have grounded := collect_grounded (grounded_of_check_emptiness emptiness)
    have rest : Judges (do
        s.checkRecursions
        let s := s.collectTypes
        s.checkNotes
        s.checkRepetition
        return s) := by
      apply Judges.bind (check_recursions_judges s)
      intro _ passed
      have resolved := collect_resolved (resolved_of_bound bound passed)
      apply Judges.bind (check_notes_judges grounded resolved)
      intro _ _
      exact .bind (check_repeated_judges _) fun _ _ => .ok _
    cases outcome : s.completed with
    | ok final =>
      obtain ⟨_, _, rfl, _⟩ := eq_collect_of_completed outcome
      exact grounded
    | error e =>
      refine .inl (rest e ?_)
      simpa only [completed, emptiness, bind, Except.bind] using outcome

theorem bound_of_expanded (grounded : s.addFatal.Grounded) {g : Schema}
    (expanded : s.expanded = .ok g) : g.Bound := by
  obtain ⟨n, declared, _, spread⟩ := declared_of_expanded expanded
  obtain ⟨_, named, bound⟩ := named_of_declared declared
  have flat := (names_of_name_types grounded named).grounded grounded
  exact (expands_of_ok spread).bound (bound_of_check_references flat bound)

/-- Where naming puts no type in a second place, the analysis comes to an end. -/
theorem not_endless_of_treelike {g : Schema} (declared : s.declared = .ok g)
    (treelike : g.Treelike) {g' : Schema} (expanded : s.expanded = .ok g') : g'.Grounded := by
  obtain ⟨n, declared', _, spread⟩ := declared_of_expanded expanded
  rw [declared] at declared'
  cases declared'
  exact treelike.expands_grounded spread

/-- A schema is accepted, and then nests no type in itself, or refused for a fault; unless spreads
that are accepted nest a type in itself, which is then walked through without end. They cannot do
so where every type stands in one place. -/
theorem analysis_outcome (tree : SchemaTree) :
    (∀ final, (ofTree tree).analyse = .ok final → final.Grounded) ∧
    (∀ e, (ofTree tree).analyse = .error e → IsSemantic e ∨ e = .endless) ∧
    ((ofTree tree).analyse = .error .endless ↔
      ∃ g, (ofTree tree).expanded = .ok g ∧ ¬ g.Grounded ∧
        g.checkNotEmpty g.walk.visits = .ok ()) ∧
    ∀ g, (ofTree tree).declared = .ok g → g.Treelike →
      (ofTree tree).analyse ≠ .error .endless := by
  have grounded := (treelike_of_tree tree).add_fatal.grounded
  have endless : (ofTree tree).analyse = .error .endless ↔
      ∃ g, (ofTree tree).expanded = .ok g ∧ ¬ g.Grounded ∧
        g.checkNotEmpty g.walk.visits = .ok () := by
    rw [analyse_eq]
    cases outcome : (ofTree tree).expanded with
    | error e =>
      obtain ⟨fault, rfl⟩ := expanded_judges grounded e outcome
      simp [Except.bind]
    | ok g =>
      have completes := completed_cases (bound_of_expanded grounded outcome)
      simp only [Except.bind, Except.ok.injEq, exists_eq_left', ← check_emptiness_endless_iff]
      constructor
      · intro failed
        rw [failed] at completes
        rcases completes with ⟨fault, same⟩ | ⟨_, unending⟩
        · cases same
        · exact unending
      · intro unending
        simp only [completed, unending, bind, Except.bind]
  refine ⟨?_, ?_, endless, ?_⟩
  · intro final accepted
    obtain ⟨g, expanded, completed⟩ := expanded_of_analyse accepted
    have completes := completed_cases (bound_of_expanded grounded expanded)
    rwa [completed] at completes
  · intro e failed
    rw [analyse_eq] at failed
    cases outcome : (ofTree tree).expanded with
    | error other =>
      rw [outcome] at failed
      cases failed
      exact .inl (expanded_judges grounded e outcome)
    | ok g =>
      rw [outcome] at failed
      have completes := completed_cases (bound_of_expanded grounded outcome)
      rw [show g.completed = .error e from failed] at completes
      exact completes.imp_right And.left
  · intro g declared treelike failed
    obtain ⟨g', expanded, nested, _⟩ := endless.mp failed
    exact nested (not_endless_of_treelike declared treelike expanded)

theorem accounts_outcome : ∃ final, (ofTree (accounts (.primitive .uint {}))).analyse = .ok final ∧
    final.Grounded := by
  have sound : (ofTree (accounts (.primitive .uint {}))).analyse.isOk := by decide +kernel
  obtain ⟨final, accepted⟩ := exists_of_is_ok sound
  exact ⟨final, accepted, (analysis_outcome _).1 final accepted⟩

/-- The type of the field `b` is named `AB`, and so is the equal type that spreads `A`: expanded
for `AB`, the struct `A` is given a field that holds `AB`, before `AB` is given the field of `A`. -/
theorem named_together_endless :
    ((SchemaTree.parse ⟨[], []⟩ "-" "type AB \x7b ...A \x7d\ntype A \x7b b: \x7b ...A \x7d \x7d").toOption.map
      fun tree => (ofTree tree).analyse) = some (.error .endless) := by
  simp only [SchemaTree.parse_by_chars]
  decide +kernel

end ApiSchema.Schema
