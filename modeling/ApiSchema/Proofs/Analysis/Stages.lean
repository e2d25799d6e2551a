import ApiSchema.Analysis
import ApiSchema.Proofs.Schema.Leading

/-! The analysis in three stages: declarations are named and bound, spreads give way to fields, and
what has come of them is checked. -/

namespace ApiSchema.Schema

def declared (s : Schema) : Checked Schema := do
  let s := s.addFatal
  s.checkRedeclarations
  let s ← s.nameTypes
  s.checkReferences
  return s

def expanded (s : Schema) : Checked Schema := do
  let s ← s.declared
  s.checkSecrets
  s.expandSpreads

def completed (s : Schema) : Checked Schema := do
  s.checkEmptiness
  s.checkRecursions
  let s := s.collectTypes
  s.checkNotes
  s.checkRepetition
  return s

variable {s s' g : Schema}

theorem add_fatal_same_types (s : Schema) : SameTypes s s.addFatal := by
  unfold addFatal
  split <;> exact ⟨rfl, rfl, rfl, rfl⟩

theorem add_fatal_operations (s : Schema) : s.addFatal.operations = s.operations := by
  unfold addFatal
  split <;> rfl

theorem analyse_eq (s : Schema) : s.analyse = s.expanded.bind completed := by
  simp only [analyse, expanded, declared, completed, bind, Except.bind, pure, Except.pure]
  cases s.addFatal.checkRedeclarations <;> simp only
  cases s.addFatal.nameTypes <;> simp only
  next g => cases g.checkReferences <;> simp only
            cases g.checkSecrets <;> simp only

theorem expanded_of_analyse (accepted : s.analyse = .ok s') :
    ∃ g, s.expanded = .ok g ∧ g.completed = .ok s' := by
  rw [analyse_eq] at accepted
  cases first : s.expanded with
  | error e => rw [first] at accepted; cases accepted
  | ok g => exact ⟨g, rfl, by simpa [first, Except.bind] using accepted⟩

theorem declared_of_expanded (accepted : s.expanded = .ok s') :
    ∃ g, s.declared = .ok g ∧ g.checkSecrets = .ok () ∧ g.expandSpreads = .ok s' := by
  simp only [expanded, bind, Except.bind] at accepted
  cases first : s.declared with
  | error e => rw [first] at accepted; cases accepted
  | ok g =>
    cases safe : g.checkSecrets with
    | error e => simp only [first, safe] at accepted; cases accepted
    | ok _ => exact ⟨g, rfl, safe, by simpa [first, safe] using accepted⟩

theorem named_of_declared (accepted : s.declared = .ok g) :
    s.addFatal.checkRedeclarations = .ok () ∧ s.addFatal.nameTypes = .ok g ∧
      g.checkReferences = .ok () := by
  simp only [declared, bind, Except.bind] at accepted
  cases first : s.addFatal.checkRedeclarations with
  | error e => simp only [first] at accepted; cases accepted
  | ok _ =>
    cases second : s.addFatal.nameTypes with
    | error e => simp only [first, second] at accepted; cases accepted
    | ok g' =>
      cases third : g'.checkReferences with
      | error e => simp only [first, second, third] at accepted; cases accepted
      | ok _ =>
        simp only [first, second, third] at accepted
        cases accepted
        exact ⟨rfl, rfl, third⟩

theorem eq_collect_of_completed (accepted : g.completed = .ok s') :
    g.checkEmptiness = .ok () ∧ g.checkRecursions = .ok () ∧ s' = g.collectTypes ∧
      s'.checkNotes = .ok () ∧ s'.checkRepetition = .ok () := by
  simp only [completed, bind, Except.bind] at accepted
  cases first : g.checkEmptiness with
  | error e => simp only [first] at accepted; cases accepted
  | ok _ =>
    cases second : g.checkRecursions with
    | error e => simp only [first, second] at accepted; cases accepted
    | ok _ =>
      cases third : g.collectTypes.checkNotes with
      | error e => simp only [first, second, third] at accepted; cases accepted
      | ok _ =>
        cases fourth : g.collectTypes.checkRepetition with
        | error e => simp only [first, second, third, fourth] at accepted; cases accepted
        | ok _ =>
          simp only [first, second, third, fourth] at accepted
          cases accepted
          exact ⟨rfl, rfl, rfl, third, fourth⟩

end ApiSchema.Schema
