import ApiSchema.Analysis.Redeclaration
import ApiSchema.Proofs.Schema.Shape

/-! Once declarations have been compared, all of one name are of one shape. -/

namespace ApiSchema.Schema

def SameDefinition (s : Schema) (d d' : Definition) : Prop :=
  d.type.suffixes = d'.type.suffixes ∧
    s.shape s.nestingBound d.type.base = s.shape s.nestingBound d'.type.base

variable {s : Schema}

theorem SameDefinition.trans {d d' d'' : Definition} (first : s.SameDefinition d d')
    (second : s.SameDefinition d' d'') : s.SameDefinition d d'' :=
  ⟨first.1.trans second.1, first.2.trans second.2⟩

theorem SameDefinition.symm {d d' : Definition} (same : s.SameDefinition d d') :
    s.SameDefinition d' d :=
  ⟨same.1.symm, same.2.symm⟩

theorem find_skip {earlier rest : List Definition} {d previous : Definition}
    (taken : earlier.find? (·.name == d.name) = some previous) (name : String) :
    (earlier ++ d :: rest).find? (·.name == name) = (earlier ++ rest).find? (·.name == name) := by
  simp only [List.find?_append, List.find?_cons]
  by_cases same : d.name = name
  · subst same
    simp [taken]
  · have other : (d.name == name) = false := by simpa using same
    rw [other]

theorem same_as_first {definitions : List Definition} :
    ∀ {earlier}, s.checkRedeclared earlier definitions = .ok () →
      ∀ d ∈ definitions, ∃ kept, (earlier ++ definitions).find? (·.name == d.name) = some kept ∧
        s.SameDefinition kept d := by
  induction definitions with
  | nil => intro _ _ d member; cases member
  | cons d rest ih =>
    intro earlier passed other member
    simp only [checkRedeclared] at passed
    split at passed
    · next new =>
      rcases List.mem_cons.mp member with rfl | later
      · refine ⟨other, ?_, rfl, rfl⟩
        rw [List.find?_append, new]
        simp
      · obtain ⟨kept, found, same⟩ := ih passed other later
        rw [List.append_assoc] at found
        exact ⟨kept, found, same⟩
    · next previous taken =>
      split at passed
      · next alike =>
        rcases List.mem_cons.mp member with rfl | later
        · refine ⟨previous, ?_, same_type_iff.mp alike⟩
          rw [List.find?_append, taken]
          rfl
        · obtain ⟨kept, found, same⟩ := ih passed other later
          exact ⟨kept, (find_skip taken _).trans found, same⟩
      · cases passed

theorem same_definition_of_name (passed : s.checkRedeclarations = .ok ()) {d d' : Definition}
    (member : d ∈ s.definitions) (member' : d' ∈ s.definitions) (named : d.name = d'.name) :
    s.SameDefinition d d' := by
  obtain ⟨kept, found, same⟩ := same_as_first passed d member
  obtain ⟨kept', found', same'⟩ := same_as_first passed d' member'
  rw [named] at found
  rw [found] at found'
  cases found'
  exact same.symm.trans same'

theorem check_redeclared_ok {definitions : List Definition}
    (same : ∀ d ∈ s.definitions, ∀ d' ∈ s.definitions, d.name = d'.name → s.SameDefinition d d')
    (rest : definitions ⊆ s.definitions) :
    ∀ {earlier}, earlier ⊆ s.definitions → s.checkRedeclared earlier definitions = .ok () := by
  induction definitions with
  | nil => exact fun _ => rfl
  | cons d later ih =>
    intro earlier before
    obtain ⟨here, rest⟩ := List.cons_subset.mp rest
    unfold checkRedeclared
    split
    · exact ih rest (List.append_subset.mpr ⟨before, by simpa using here⟩)
    · next previous taken =>
      have named : previous.name = d.name := by simpa using List.find?_some taken
      have alike := same previous (before (List.mem_of_find?_eq_some taken)) d here named
      rw [if_pos (same_type_iff.mpr alike)]
      exact ih rest before

theorem check_redeclarations_ok :
    s.checkRedeclarations = .ok () ↔
      ∀ d ∈ s.definitions, ∀ d' ∈ s.definitions, d.name = d'.name → s.SameDefinition d d' :=
  ⟨fun passed _ member _ member' => same_definition_of_name passed member member',
    fun same => check_redeclared_ok same (List.Subset.refl _) (List.nil_subset _)⟩

end ApiSchema.Schema
