import ApiSchema.Proofs.Analysis.Calling
import ApiSchema.Proofs.Schema.Revision

/-! The naming of types comes to an end, and puts a type only in the place of one of its shape. It
fails only where two paths of one name lead to types that differ. -/

namespace ApiSchema

namespace Schema

/-- A type in the place of another one, behind the same suffixes. -/
structure Replaces (s : Schema) (t t' : TypeUse) : Prop where
  suffixes : t'.suffixes = t.suffixes
  base : s.Resembles s t.base t'.base

structure DefinitionReplaces (s : Schema) (d d' : Definition) : Prop where
  name : d'.name = d.name
  type : s.Replaces d.type d'.type
  notes : d'.notes = d.notes
  location : d'.location = d.location

structure ErrorReplaces (s : Schema) (e e' : ErrorKind) : Prop where
  name : e'.name = e.name
  data : s.Replaces e.data e'.data
  notes : e'.notes = e.notes
  location : e'.location = e.location

structure OperationReplaces (s : Schema) (o o' : Operation) : Prop where
  name : o'.name = o.name
  members : o'.members = o.members
  args : o'.args = o.args
  returns : s.Replaces o.returns o'.returns
  notes : o'.notes = o.notes
  location : o'.location = o.location

/-- A schema that the naming of types has been made of another one. -/
structure Names (s s' : Schema) : Prop where
  revises : s.Revises s'
  definitions : List.Forall₂ s.DefinitionReplaces s.definitions s'.definitions
  errors : List.Forall₂ s.ErrorReplaces s.errors s'.errors
  operations : List.Forall₂ s.OperationReplaces s.operations s'.operations

/-- Two paths of one name lead to types of different shapes. -/
def Clashes (s : Schema) : Prop :=
  ∃ path other base base', s.Called path base ∧ s.Called other base' ∧ base.IsNested ∧
    base'.IsNested ∧ Naming.nameOfPath path = Naming.nameOfPath other ∧ ¬ s.Resembles s base base'

def CalledAlike (s : Schema) (path : List String) (base : TypeBase) : Prop :=
  ∃ own, s.Called path own ∧ s.Resembles s own base

theorem CalledAlike.alike {s : Schema} {path : List String} {base base' : TypeBase}
    (called : s.CalledAlike path base) (same : s.Resembles s base base') :
    s.CalledAlike path base' := by
  obtain ⟨own, called, alike⟩ := called
  exact ⟨own, called, alike.trans same⟩

theorem CalledAlike.inside {s : Schema} {path : List String} {base part : TypeBase} {label : String}
    (called : s.CalledAlike path base) (nests : s.NestsAs base label part) :
    s.CalledAlike (path ++ [label]) part := by
  obtain ⟨own, called, alike⟩ := called
  obtain ⟨inner, nests, same⟩ := alike.symm.nests_as nests
  exact ⟨inner, called.inside nests, same.symm⟩

end Schema

namespace Naming

open Schema

/-- The types have the shapes that they have in `s`, and hold the names of paths to them. -/
structure Steady (s : Schema) (n : Naming) : Prop where
  revises : s.Revises n.schema
  shallow : ∀ {name h path}, n.holders.get? name = some (h, path) → ¬ s.Deep s.nestingBound h
  called : ∀ {name h path}, n.holders.get? name = some (h, path) →
    name = nameOfPath path ∧ h.IsNested ∧ s.CalledAlike path h

/-- The pass fails with a fault of the schema, for paths that clash. -/
def Fault (s : Schema) (e : AnalysisFailure) : Prop := IsSemantic e ∧ s.Clashes

variable {s : Schema} {n : Naming}

theorem give_name_revises {s' : Schema} (revises : s.Revises s') (name : String)
    (base : TypeBase) : s.Revises (giveName name s' base) := by
  cases base with
  | struct t => exact revises.set_struct_name t name
  | enum e => exact revises.set_enum (revises.values e)
  | _ => exact revises

theorem give_name_steady (steady : Steady s n) (name : String) (base : TypeBase) :
    Steady s ⟨giveName name n.schema base, n.holders⟩ where
  revises := give_name_revises steady.revises name base
  shallow := steady.shallow
  called := steady.called

theorem take_name_within (steady : Steady s n) {path : List String} {base : TypeBase}
    (called : s.CalledAlike path base) (nested : base.IsNested)
    (shallow : ¬ s.Deep s.nestingBound base) :
    Within (takeName path base) n (Fault s) fun taken n' =>
      Steady s n' ∧ ∀ h, taken = some h → s.Resembles s base h := by
  have steady := give_name_steady steady (nameOfPath path) base
  apply Within.bind
  apply Within.modify
  apply Within.bind
  apply Within.get
  split
  · apply Within.bind
    apply Within.set
    refine Within.pure ⟨⟨steady.revises, ?_, ?_⟩, by simp⟩
    · intro name h other found
      rw [Table.get?_insert] at found
      split at found
      · cases found
        exact shallow
      · exact steady.shallow found
    · intro name h other found
      rw [Table.get?_insert] at found
      split at found
      · next same =>
        cases found
        exact ⟨same, nested, called⟩
      · exact steady.called found
  · next h other found =>
    have shapes := same_type_iff (s := giveName (nameOfPath path) n.schema base)
      (t := .ofBase h) (u := .ofBase base)
    rw [steady.revises.nesting_bound, steady.revises.shape, steady.revises.shape] at shapes
    split
    · next same =>
      refine Within.pure ⟨steady, fun h' taken => ?_⟩
      cases taken
      exact resembles_of_shape shallow (steady.shallow found) (shapes.mp same).2.symm
    · next differ =>
      refine Within.throw ⟨⟨_, rfl⟩, ?_⟩
      obtain ⟨names, nested', own', called', alike'⟩ := steady.called found
      obtain ⟨own, called, alike⟩ := called
      refine ⟨path, other, own, own', called, called', alike.symm.nested nested,
        alike'.symm.nested nested', names, fun same => differ (shapes.mpr ⟨rfl, ?_⟩)⟩
      exact (alike'.symm.trans (same.symm.trans alike)) _

/-- What one level of the pass may expect of the level below, for bases nested so deep. -/
def Descends (s : Schema) (descend : List String → TypeBase → NamingPass TypeBase)
    (depth : Nat) : Prop :=
  ∀ path base n, Steady s n → s.CalledAlike path base → ¬ s.Deep depth base →
    Within (descend path base) n (Fault s) fun base' n' =>
      Steady s n' ∧ s.Resembles s base base'

variable {descend : List String → TypeBase → NamingPass TypeBase} {depth : Nat}

theorem name_field_within (descends : Descends s descend depth) (steady : Steady s n)
    {path : List String} {id : FieldId}
    (called : s.CalledAlike (path ++ [(s.field id).name]) (s.field id).type.base)
    (shallow : ¬ s.Deep depth (s.field id).type.base) :
    Within (nameField descend path id) n (Fault s) fun _ n' => Steady s n' := by
  apply Within.bind
  apply Within.get
  apply Within.bind
  have current := (steady.revises.field id).base
  rw [(steady.revises.field id).name] at called
  apply (descends _ _ n steady (called.alike current) fun deep => shallow (current.symm.deep deep)).mono
  intro base n' ⟨steady', resembles⟩
  apply Within.modify
  have current' := (steady'.revises.field id).base
  exact ⟨steady'.revises.set_field (current'.symm.trans (current.trans resembles)),
    steady'.shallow, steady'.called⟩

theorem name_member_within (descends : Descends s descend depth) (steady : Steady s n)
    {path : List String} {m : Member}
    (called : ∀ id, m = .field id →
      s.CalledAlike (path ++ [(s.field id).name]) (s.field id).type.base)
    (shallow : ∀ id, m = .field id → ¬ s.Deep depth (s.field id).type.base) :
    Within (nameMember descend path m) n (Fault s) fun _ n' => Steady s n' := by
  cases m with
  | field id => exact name_field_within descends steady (called id rfl) (shallow id rfl)
  | spread name nameLocation location => exact Within.pure steady

theorem name_value_within (descends : Descends s descend depth) (steady : Steady s n)
    {path : List String} {v : EnumValue}
    (called : ∀ t, v.data = some t → s.CalledAlike (path ++ [v.text]) (.struct t))
    (shallow : ∀ t, v.data = some t → ¬ s.Deep depth (.struct t)) :
    Within (nameValue descend path v) n (Fault s) fun v' n' =>
      Steady s n' ∧ s.ValueResembles s v v' := by
  unfold nameValue
  split
  · exact Within.pure ⟨steady, .refl v⟩
  · next t data =>
    apply Within.bind
    apply (descends _ _ n steady (called t data) (shallow t data)).mono
    intro base n' ⟨steady', resembles⟩
    split
    · exact Within.pure ⟨steady', .with_data data resembles⟩
    · exact Within.pure ⟨steady', .refl v⟩

theorem name_base_within (fuel : Nat) :
    fuel ≤ s.nestingBound → Descends s (nameBase (fuel + 1)) fuel := by
  induction fuel with
  | zero =>
    intro _ path base n steady _ shallow
    cases base with
    | primitive kind => exact Within.pure ⟨steady, .refl _⟩
    | reference name location => exact Within.pure ⟨steady, .refl _⟩
    | _ => exact absurd (.here trivial) shallow
  | succ fuel ih =>
    intro le path base n steady called shallow
    have descends := ih (by omega)
    have inner : ∀ {part}, s.Nests base part → ¬ s.Deep fuel part :=
      fun nests deep => shallow (.inside nests deep)
    have shallow' : ¬ s.Deep s.nestingBound base := fun deep => shallow (deep.of_le le)
    cases base with
    | primitive kind => exact Within.pure ⟨steady, .refl _⟩
    | reference name location => exact Within.pure ⟨steady, .refl _⟩
    | struct t =>
      apply Within.bind
      apply (take_name_within steady called trivial shallow').mono
      intro taken n' ⟨steady', resembles⟩
      split
      · next h => exact Within.pure ⟨steady', resembles h rfl⟩
      · apply Within.bind
        apply Within.get
        simp only [steady'.revises.members, steady'.revises.fields]
        apply Within.bind
        apply (Within.forM steady' ?_).mono
        · intro _ n' steady'
          apply Within.bind
          apply (Within.forM steady' ?_).mono
          · exact fun _ n' steady' => Within.pure ⟨steady', .refl _⟩
          · intro id member n' steady'
            exact name_field_within descends steady' (called.inside (.field (.inr member)))
              (inner (.field (.inr member)))
        · intro m member n' steady'
          apply name_member_within descends steady'
          · rintro id rfl
            exact called.inside (.field (.inl member))
          · rintro id rfl
            exact inner (.field (.inl member))
    | enum e =>
      apply Within.bind
      apply (take_name_within steady called trivial shallow').mono
      intro taken n' ⟨steady', resembles⟩
      split
      · next h => exact Within.pure ⟨steady', resembles h rfl⟩
      · apply Within.bind
        apply Within.get
        have named : Within
            ((n'.schema.enum e).values.mapM (nameValue (nameBase (fuel + 1)) path)) n' (Fault s)
            fun values n'' => Steady s n'' ∧
              List.Forall₂ (s.ValueResembles s) (n'.schema.enum e).values values := by
          apply Within.mapM steady'
          intro v member n'' steady''
          obtain ⟨w, present, alike⟩ := exists_left (steady'.revises.values e) member
          apply name_value_within descends steady''
          · intro t data
            obtain ⟨t', data', same⟩ := alike.of_data data
            rw [← alike.text]
            exact (called.inside (.value present data')).alike same
          · intro t data deep
            obtain ⟨t', data', same⟩ := alike.of_data data
            exact inner (.value present data') (same.symm.deep deep)
        apply Within.bind
        apply named.mono
        intro values n'' ⟨steady'', named⟩
        apply Within.bind
        apply Within.modify
        have current : List.Forall₂ (s.ValueResembles s) (s.enum e).values values :=
          forall_trans (steady'.revises.values e) named fun _ _ _ => .trans
        exact Within.pure
          ⟨⟨steady''.revises.set_enum current, steady''.shallow, steady''.called⟩, .refl _⟩

/-- A path leads to a type that is not nested too deep. -/
structure Ready (s : Schema) (path : List String) (base : TypeBase) : Prop where
  called : s.CalledAlike path base
  shallow : ¬ s.Deep s.nestingBound base

theorem ready_of_called (grounded : s.Grounded) {path : List String} {base : TypeBase}
    (called : s.Called path base) (declared : s.Declares base) : Ready s path base :=
  ⟨⟨base, called, .refl _⟩, acyclic_iff.mp (grounded base declared)⟩

theorem name_type_within (steady : Steady s n) {path : List String} {t : TypeUse}
    (ready : Ready s path t.base) :
    Within (nameType (s.nestingBound + 1) path t) n (Fault s) fun t' n' =>
      Steady s n' ∧ s.Replaces t t' := by
  apply Within.bind
  apply (name_base_within _ (Nat.le_refl _) path t.base n steady ready.called ready.shallow).mono
  intro base n' ⟨steady', resembles⟩
  exact Within.pure ⟨steady', rfl, resembles⟩

theorem name_error_within (steady : Steady s n) {e : ErrorKind}
    (ready : Ready s [e.name ++ "Data"] e.data.base) :
    Within (nameError (s.nestingBound + 1) e) n (Fault s) fun e' n' =>
      Steady s n' ∧ s.ErrorReplaces e e' := by
  apply Within.bind
  apply (name_type_within steady ready).mono
  intro data n' ⟨steady', replaces⟩
  exact Within.pure ⟨steady', rfl, replaces, rfl, rfl⟩

theorem name_definition_within (steady : Steady s n) {d : Definition}
    (ready : Ready s [d.name] d.type.base) :
    Within (nameDefinition (s.nestingBound + 1) d) n (Fault s) fun d' n' =>
      Steady s n' ∧ s.DefinitionReplaces d d' := by
  apply Within.bind
  apply (name_type_within steady ready).mono
  intro type n' ⟨steady', replaces⟩
  exact Within.pure ⟨steady', rfl, replaces, rfl, rfl⟩

theorem name_operation_within (steady : Steady s n) {o : Operation}
    (result : Ready s [o.name] o.returns.base)
    (args : ∀ id, .field id ∈ o.members ∨ id ∈ o.args →
      Ready s ([o.name] ++ [(s.field id).name]) (s.field id).type.base) :
    Within (nameOperation (s.nestingBound + 1) o) n (Fault s) fun o' n' =>
      Steady s n' ∧ s.OperationReplaces o o' := by
  have descends := name_base_within (s := s) _ (Nat.le_refl _)
  apply Within.bind
  apply (Within.forM steady ?_).mono
  · intro _ n' steady'
    apply Within.bind
    apply (Within.forM steady' ?_).mono
    · intro _ n' steady'
      apply Within.bind
      apply (name_type_within steady' result).mono
      intro returns n' ⟨steady', replaces⟩
      exact Within.pure ⟨steady', rfl, rfl, rfl, replaces, rfl, rfl⟩
    · intro id member n' steady'
      have ready := args id (.inr member)
      exact name_field_within descends steady' ready.called ready.shallow
  · intro m member n' steady'
    apply name_member_within descends steady'
    · rintro id rfl
      exact (args id (.inl member)).called
    · rintro id rfl
      exact (args id (.inl member)).shallow

theorem name_all_within (grounded : s.Grounded) :
    Within nameAll ⟨s, []⟩ (Fault s) fun _ n => s.Names n.schema := by
  have start : Steady s ⟨s, []⟩ := ⟨.refl s, fun found => (by cases found), fun found => (by cases found)⟩
  apply Within.bind
  apply Within.get
  apply Within.bind
  apply (Within.mapM start fun e member n steady =>
    name_error_within steady (ready_of_called grounded (.error member) (.error member))).mono
  intro errors n ⟨steady, renamedErrors⟩
  apply Within.bind
  apply (Within.mapM steady fun d member n steady =>
    name_definition_within steady
      (ready_of_called grounded (.definition member) (.definition member))).mono
  intro definitions n ⟨steady, renamedDefinitions⟩
  apply Within.bind
  apply (Within.mapM steady fun o member n steady =>
    name_operation_within steady (ready_of_called grounded (.returns member) (.returns member))
      fun id held => ready_of_called grounded (.argument member held) (.argument member held)).mono
  intro operations n ⟨steady, renamedOperations⟩
  apply Within.modify
  exact ⟨steady.revises.redeclare _ _ _, renamedDefinitions, renamedErrors, renamedOperations⟩

end Naming

namespace Schema

theorem find_replaced {s : Schema} {definitions definitions' : List Definition}
    (replaced : List.Forall₂ s.DefinitionReplaces definitions definitions') (name : String) :
    Option.Rel s.DefinitionReplaces (definitions.find? (·.name == name))
      (definitions'.find? (·.name == name)) := by
  induction replaced with
  | nil => exact .none
  | @cons d d' rest rest' first _ ih =>
    simp only [List.find?_cons, first.name]
    cases d.name == name with
    | true => exact .some first
    | false => exact ih

theorem Names.same_meanings {s g : Schema} (named : s.Names g) : s.SameMeanings g := by
  intro name
  exact rel_mono (find_replaced named.definitions name) fun _ _ alike =>
    alike.type.base.trans (named.revises.resembles _)

theorem Names.declares {s g : Schema} (named : s.Names g) {base : TypeBase}
    (declared : s.Declares base) : ∃ base', g.Declares base' ∧ s.Resembles g base base' := by
  cases declared with
  | definition member =>
    obtain ⟨_, member', replaced⟩ := exists_right named.definitions member
    exact ⟨_, .definition member', replaced.type.base.trans (named.revises.resembles _)⟩
  | error member =>
    obtain ⟨_, member', replaced⟩ := exists_right named.errors member
    exact ⟨_, .error member', replaced.data.base.trans (named.revises.resembles _)⟩
  | argument member held =>
    obtain ⟨_, member', replaced⟩ := exists_right named.operations member
    rw [← replaced.members, ← replaced.args] at held
    exact ⟨_, .argument member' held,
      (named.revises.field _).base.trans (named.revises.resembles _)⟩
  | spread member held =>
    obtain ⟨_, member', replaced⟩ := exists_right named.operations member
    exact ⟨_, .spread member' (replaced.members ▸ held), named.revises.resembles _⟩
  | returns member =>
    obtain ⟨_, member', replaced⟩ := exists_right named.operations member
    exact ⟨_, .returns member', replaced.returns.base.trans (named.revises.resembles _)⟩

theorem Names.known {s g : Schema} (named : s.Names g) {base : TypeBase} (known : s.Known base) :
    ∃ base', g.Known base' ∧ s.Resembles g base base' := by
  obtain ⟨root, declared, way⟩ := known
  obtain ⟨root', declared', alike⟩ := named.declares declared
  obtain ⟨base', way', alike'⟩ := alike.reaches named.same_meanings way
  exact ⟨base', (known_of_declares declared').reaches way', alike'⟩

theorem name_types_within {s : Schema} (grounded : s.Grounded) :
    match s.nameTypes with
    | .ok g => s.Names g
    | .error e => IsSemantic e ∧ s.Clashes := by
  have run := Naming.name_all_within grounded
  cases ran : Naming.nameAll.run ⟨s, []⟩ with
  | error e =>
    simp only [nameTypes, ran]
    exact run.of_error ran
  | ok r =>
    simp only [nameTypes, ran]
    exact run.of_ok ran

theorem names_of_name_types {s g : Schema} (grounded : s.Grounded) (named : s.nameTypes = .ok g) :
    s.Names g := by
  have outcome := name_types_within grounded
  rwa [named] at outcome

theorem Revises.acyclic {s g : Schema} (revises : s.Revises g) {base base' : TypeBase}
    (alike : s.Resembles s base base') (acyclic : s.Acyclic base) : g.Acyclic base' := by
  have shallow : ¬ g.Deep s.nestingBound base' := by
    rw [revises.deep_iff]
    exact fun deep => acyclic_iff.mp acyclic (alike.symm.deep deep)
  exact acyclic_of_not_deep shallow

/-- Naming nests no type in itself, because every type keeps its shape. -/
theorem Names.grounded {s g : Schema} (named : s.Names g) (grounded : s.Grounded) :
    g.Grounded := by
  intro base declared
  cases declared with
  | definition member =>
    obtain ⟨d, written, replaced⟩ := exists_left named.definitions member
    exact named.revises.acyclic replaced.type.base (grounded _ (.definition written))
  | error member =>
    obtain ⟨e, written, replaced⟩ := exists_left named.errors member
    exact named.revises.acyclic replaced.data.base (grounded _ (.error written))
  | argument member held =>
    obtain ⟨o, written, replaced⟩ := exists_left named.operations member
    rw [replaced.members, replaced.args] at held
    exact named.revises.acyclic (named.revises.field _).base (grounded _ (.argument written held))
  | spread => exact acyclic_of_not_deep (not_deep_reference 0 _ _)
  | returns member =>
    obtain ⟨o, written, replaced⟩ := exists_left named.operations member
    exact named.revises.acyclic replaced.returns.base (grounded _ (.returns written))

end Schema

end ApiSchema
