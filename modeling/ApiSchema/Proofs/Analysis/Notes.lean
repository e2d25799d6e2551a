import ApiSchema.Analysis.Notes
import ApiSchema.Proofs.Analysis.Aliases

/-! Annotations are only refused for what they say: the types they are about are all there. -/

namespace ApiSchema.Schema

variable {s : Schema}

theorem unwrap_ok {t : TypeUse}
    (resolves : ∀ name location, t.base = .reference name location → ∃ u, s.resolve name = .ok u) :
    ∃ u, s.unwrap t = .ok u := by
  unfold unwrap
  split
  · next name location => exact resolves name location rfl
  · exact ⟨_, rfl⟩

theorem required_base (t : TypeUse) : (required t).base = t.base := by
  unfold required
  split <;> rfl

theorem rest_type_ok (resolved : s.Resolved) {t : TypeUse} (known : s.Known t.base) :
    ∃ answer, s.isRestType t = .ok answer := by
  obtain ⟨u, unwrapped⟩ := unwrap_ok fun name location same => resolved name location (same ▸ known)
  unfold isRestType
  rw [unwrapped]
  split
  · next failed => cases failed
  · exact ⟨_, rfl⟩
  · exact ⟨_, rfl⟩
  · exact ⟨_, rfl⟩

theorem rest_variable_judges (resolved : s.Resolved)
    {args : List Field} (known : ∀ arg ∈ args, s.Known arg.type.base) (m : RestMapping)
    (location : Location) (name : String) :
    Judges (s.checkRestVariable args m location name) := by
  unfold checkRestVariable
  split
  · exact .refuse _
  · next arg found =>
    split
    · exact .refuse _
    · have suited := known arg (List.mem_of_find?_eq_some found)
      rw [← required_base] at suited
      obtain ⟨answer, asked⟩ := rest_type_ok resolved suited
      apply Judges.bind
      · rw [asked]
        exact .ok _
      · intro answer _
        cases answer
        · exact .refuse _
        · exact .ok _

theorem rest_argument_judges (m : RestMapping) (names : List String) (location : Location)
    (arg : Field) : Judges (checkRestArgument m names location arg) := by
  unfold checkRestArgument
  split
  · exact .refuse _
  · split
    · exact .refuse _
    · exact .ok _

theorem rest_judges (resolved : s.Resolved) {o : Operation}
    (known : ∀ id ∈ o.args, s.Known (s.field id).type.base) (m : RestMapping)
    (location : Location) : Judges (s.checkRest o m location) := by
  have suited : ∀ arg ∈ o.args.map s.field, s.Known arg.type.base := by
    intro arg member
    obtain ⟨id, present, rfl⟩ := List.mem_map.mp member
    exact known id present
  unfold checkRest
  extract_lets names args finish start
  have finishes : Judges (finish ()) := by
    apply Judges.bind
    · exact .forM fun arg _ => rest_argument_judges m names location arg
    · intro _ _
      split
      · exact .refuse _
      · exact .ok _
  have starts : Judges (start ()) := by
    apply Judges.bind
    · exact .forM fun name _ => rest_variable_judges resolved suited m location name
    · intro _ _
      split
      · exact finishes
      · split
        · exact finishes
        · exact .bind (.refuse _) fun _ _ => finishes
  split
  · exact .bind (.refuse _) fun _ _ => starts
  · exact starts

theorem check_rest_ok {o : Operation} {m : RestMapping} {location : Location} :
    s.checkRest o m location = .ok () ↔
      hasRepeats (m.pathVariables ++ m.queryVariables ++ m.headerVariables) = false ∧
      (∀ name ∈ m.pathVariables ++ m.queryVariables ++ m.headerVariables,
        s.checkRestVariable (o.args.map s.field) m location name = .ok ()) ∧
      (∀ name, m.bodyVariable = some name → (o.args.map s.field).any (·.name == name) = true) ∧
      (∀ arg ∈ o.args.map s.field, checkRestArgument m
        (m.pathVariables ++ m.queryVariables ++ m.headerVariables) location arg = .ok ()) ∧
      (m.method == "GET" && o.returns.isPrimitive .void) = false := by
  unfold checkRest
  extract_lets names args finish start
  have refused : ∀ {fault : SemanticError} {next : PUnit → Checked PUnit},
      (refuse fault >>= next) ≠ .ok ⟨⟩ := nofun
  have finishes : finish () = .ok () ↔ (∀ arg ∈ args, checkRestArgument m names location arg = .ok ()) ∧
      (m.method == "GET" && o.returns.isPrimitive .void) = false := by
    refine bind_ok_iff.trans (and_congr forM_ok_iff ?_)
    cases m.method == "GET" && o.returns.isPrimitive .void with
    | true => exact ⟨nofun, nofun⟩
    | false => exact ⟨fun _ => rfl, fun _ => rfl⟩
  have starts : start () = .ok () ↔ (∀ name ∈ names, s.checkRestVariable args m location name = .ok ()) ∧
      (∀ name, m.bodyVariable = some name → args.any (·.name == name) = true) ∧ finish () = .ok () := by
    refine bind_ok_iff.trans (and_congr forM_ok_iff ?_)
    cases m.bodyVariable with
    | none => simp
    | some name =>
      simp only [Option.some.injEq, forall_eq']
      cases args.any (·.name == name) with
      | true => simp
      | false => exact ⟨fun ok => absurd ok refused, nofun⟩
  rw [← finishes, ← starts]
  change _ ↔ hasRepeats names = false ∧ _
  cases hasRepeats names with
  | true => exact ⟨fun ok => absurd ok refused, nofun⟩
  | false => simp

theorem description_judges (n : Note) : Judges (checkDescription n) := by
  unfold checkDescription
  split
  · exact .ok _
  · exact .refuse _

theorem error_note_judges (n : Note) : Judges (checkErrorNote n) := by
  unfold checkErrorNote
  split
  · split
    · exact .ok _
    · exact .refuse _
  · exact description_judges n

theorem operation_note_judges (resolved : s.Resolved)
    {o : Operation} (known : ∀ id ∈ o.args, s.Known (s.field id).type.base) (n : Note) :
    Judges (s.checkOperationNote o n) := by
  unfold checkOperationNote
  split
  · split
    · exact .ok _
    · exact .refuse _
  · next mapping _ => exact rest_judges resolved known mapping n.location
  · exact .ok _
  · exact description_judges n

theorem check_notes_judges (grounded : s.Grounded) (resolved : s.Resolved) : Judges s.checkNotes := by
  apply Judges.forM
  intro v met
  rw [mem_walk grounded] at met
  cases v with
  | error e => exact .forM fun n _ => error_note_judges n
  | definition d => exact .forM fun n _ => description_judges n
  | operation o =>
    have member : o ∈ s.operations := by
      cases met with
      | operation member => exact member
      | inside _ meets =>
        obtain ⟨_, _, shown⟩ := meets
        cases shown
    have known : ∀ id ∈ o.args, s.Known (s.field id).type.base :=
      fun id held => known_of_declares (.argument member (.inr held))
    exact .forM fun n _ => operation_note_judges resolved known n
  | field id => exact .forM fun n _ => description_judges n
  | value v => exact .forM fun n _ => description_judges n
  | _ => exact .ok _

end ApiSchema.Schema
