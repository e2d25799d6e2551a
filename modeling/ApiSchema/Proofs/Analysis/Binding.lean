import ApiSchema.Analysis.Visits
import ApiSchema.Proofs.Running
import ApiSchema.Proofs.Schema.Walk

/-! Once all references that are met are bound, so are those behind them. -/

namespace ApiSchema.Schema

def Bound (s : Schema) : Prop :=
  ∀ name location, s.Known (.reference name location) → (s.definition? name).isSome

variable {s : Schema}

theorem check_bound_ok {visits : List Visit} :
    s.checkBound visits = .ok () ↔
      ∀ name location, .reference name location ∈ visits → (s.definition? name).isSome := by
  induction visits with
  | nil => simp [checkBound]
  | cons v rest ih =>
    cases v with
    | reference name location =>
      unfold checkBound
      split
      · next bound =>
        rw [ih]
        constructor
        · intro later other place member
          rcases List.mem_cons.mp member with same | member
          · cases same
            exact bound
          · exact later other place member
        · exact fun all other place member => all other place (List.mem_cons_of_mem _ member)
      · next unbound =>
        exact ⟨nofun, fun all => absurd (all name location (List.mem_cons_self ..)) unbound⟩
    | _ => simp [checkBound, ih]

theorem check_bound_judges (visits : List Visit) : Judges (s.checkBound visits) := by
  induction visits with
  | nil => exact .ok _
  | cons v rest ih =>
    cases v with
    | reference name location =>
      unfold checkBound
      split
      · exact ih
      · exact .refuse _
    | _ => exact ih

theorem Known.inside {base : TypeBase} (known : s.Known base) :
    ∃ root, s.Declares root ∧ (s.Contains root base ∨
      ∃ name location, base = .reference name location ∧ s.Meets root (.reference name location)) := by
  obtain ⟨start, declared, way⟩ := known
  induction way with
  | refl => exact ⟨start, declared, .inl .refl⟩
  | tail _ leads ih =>
    obtain ⟨root, declared, contains | ⟨name, location, rfl, _⟩⟩ := ih
    · cases leads with
      | reference defined =>
        exact ⟨_, .definition (List.mem_of_find?_eq_some defined), .inl .refl⟩
      | field held => exact ⟨root, declared, .inl (contains.tail (.field held))⟩
      | spread member =>
        exact ⟨root, declared, .inr ⟨_, _, rfl, _, contains, .spread member⟩⟩
      | value member data =>
        exact ⟨root, declared, .inl (contains.tail (.value member data))⟩
    · cases leads with
      | reference defined =>
        exact ⟨_, .definition (List.mem_of_find?_eq_some defined), .inl .refl⟩

theorem bound_of_check_references (grounded : s.Grounded) (passed : s.checkReferences = .ok ()) :
    s.Bound := by
  intro name location known
  obtain ⟨root, declared, inside⟩ := known.inside
  apply check_bound_ok.mp passed name location
  apply (mem_walk grounded).mpr
  rcases inside with contains | ⟨_, _, same, meets⟩
  · exact .inside declared ⟨_, contains, .reference⟩
  · cases same
    exact .inside declared meets

theorem known_of_visits_reference {name : String} {location : Location}
    (visits : s.Visits (.reference name location)) : s.Known (.reference name location) := by
  cases visits with
  | inside declared meets =>
    obtain ⟨part, contains, shown⟩ := meets
    have known := (known_of_declares declared).reaches contains.reaches
    cases shown with
    | reference => exact known
    | spread member => exact known.reaches (.single (.spread member))

theorem check_references_ok (grounded : s.Grounded) : s.checkReferences = .ok () ↔ s.Bound :=
  ⟨bound_of_check_references grounded, fun bound => check_bound_ok.mpr fun name location met =>
    bound name location (known_of_visits_reference ((mem_walk grounded).mp met))⟩

end ApiSchema.Schema
