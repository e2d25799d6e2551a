import ApiSchema.Analysis.Naming
import ApiSchema.Proofs.Analysis.Binding
import ApiSchema.Proofs.Schema.Parts

/-! The paths of declarations that lead to a type, by which it can be called. -/

namespace ApiSchema

namespace Naming

theorem name_of_path_append (path : List String) (label : String) :
    nameOfPath (path ++ [label]) = nameOfPath path ++ Text.capitalised label := by
  rw [← String.toList_inj]
  simp [nameOfPath, String.toList_join]

theorem name_of_path_congr {path other : List String} (same : nameOfPath path = nameOfPath other)
    (label : String) : nameOfPath (path ++ [label]) = nameOfPath (other ++ [label]) := by
  rw [name_of_path_append, name_of_path_append, same]

end Naming

namespace Schema

/-- A path of declarations that leads to a type. -/
inductive Called (s : Schema) : List String → TypeBase → Prop where
  | error {e} (member : e ∈ s.errors) : Called s [e.name ++ "Data"] e.data.base
  | definition {d} (member : d ∈ s.definitions) : Called s [d.name] d.type.base
  | argument {o id} (member : o ∈ s.operations) (held : .field id ∈ o.members ∨ id ∈ o.args) :
    Called s ([o.name] ++ [(s.field id).name]) (s.field id).type.base
  | returns {o} (member : o ∈ s.operations) : Called s [o.name] o.returns.base
  | inside {path base label part} (called : Called s path base) (nests : s.NestsAs base label part) :
    Called s (path ++ [label]) part

variable {s s' : Schema} {base part : TypeBase} {path : List String} {label : String}

theorem Agrees.nests_as (agrees : ∀ x, s.Uses base x → s.Agrees s' x)
    (nests : s'.NestsAs base label part) : s.NestsAs base label part := by
  cases nests with
  | field held =>
    have held := (agrees _ (.struct _)).holds.mp held
    have same : s'.field _ = s.field _ := agrees _ (.field held)
    rw [same]
    exact .field held
  | value member data =>
    have same : s'.enum _ = s.enum _ := agrees _ (.enum _)
    exact .value (same ▸ member) data

theorem Called.known (called : s.Called path base) : s.Known base := by
  induction called with
  | error member => exact known_of_declares (.error member)
  | definition member => exact known_of_declares (.definition member)
  | argument member held => exact known_of_declares (.argument member held)
  | returns member => exact known_of_declares (.returns member)
  | inside _ nests ih => exact ih.reaches (.single nests.nests.leads)

theorem called_of_declares (declared : s.Declares base) (nested : base.IsNested) :
    ∃ path, s.Called path base := by
  cases declared with
  | definition member => exact ⟨_, .definition member⟩
  | error member => exact ⟨_, .error member⟩
  | argument member held => exact ⟨_, .argument member held⟩
  | spread => cases nested
  | returns member => exact ⟨_, .returns member⟩

theorem Called.contains (called : s.Called path base) (contains : s.Contains base part) :
    ∃ path, s.Called path part := by
  induction contains with
  | refl => exact ⟨path, called⟩
  | tail _ nests ih =>
    obtain ⟨path, called⟩ := ih
    obtain ⟨label, nests⟩ := nests.exists_label
    exact ⟨_, called.inside nests⟩

theorem Known.called (known : s.Known base) (nested : base.IsNested) :
    ∃ path, s.Called path base := by
  obtain ⟨root, declared, contains | ⟨name, location, rfl, _⟩⟩ := known.inside
  · rcases Relation.ReflTransGen.cases_head contains with rfl | ⟨next, nests, _⟩
    · exact called_of_declares declared nested
    · have outer : root.IsNested := by cases nests <;> trivial
      obtain ⟨path, called⟩ := called_of_declares declared outer
      exact called.contains contains
  · cases nested

end Schema

end ApiSchema
