import ApiSchema.Proofs.Schema.Shape

/-! Schemas with types in the place of others of one shape. No type comes to have another shape. -/

namespace ApiSchema.Schema

variable {s s' : Schema}

namespace FieldResembles

theorem refl (f : Field) : s.FieldResembles s f f := ⟨rfl, rfl, .refl _, rfl, rfl⟩

theorem with_base {f f' : Field} (same : s.FieldResembles s f f') {base : TypeBase}
    (resembles : s.Resembles s f'.type.base base) :
    s.FieldResembles s f { f' with type := { f'.type with base } } :=
  ⟨same.name, same.suffixes, same.base.trans resembles, same.secret, same.notes⟩

end FieldResembles

namespace ValueResembles

theorem refl (v : EnumValue) : s.ValueResembles s v v := by
  refine ⟨rfl, ?_, rfl⟩
  cases v.data with
  | none => exact .none
  | some t => exact .some (.refl _)

theorem trans {v v' v'' : EnumValue} (first : s.ValueResembles s v v')
    (second : s.ValueResembles s v' v'') : s.ValueResembles s v v'' := by
  refine ⟨first.text.trans second.text, ?_, first.notes.trans second.notes⟩
  obtain ⟨_, data, _⟩ := first
  obtain ⟨_, data', _⟩ := second
  cases v
  cases v'
  cases v''
  cases data with
  | none => exact data'
  | some same =>
    cases data' with
    | some same' => exact .some (same.trans same')

theorem with_data {v : EnumValue} {t t' : StructId} (data : v.data = some t)
    (resembles : s.Resembles s (.struct t) (.struct t')) :
    s.ValueResembles s v { v with data := some t' } :=
  ⟨rfl, data ▸ .some resembles, rfl⟩

end ValueResembles

/-- The parts of the types are those of another schema, or have their shapes there. -/
structure Revises (s s' : Schema) : Prop where
  structCount : s'.structs.size = s.structs.size
  enumCount : s'.enums.size = s.enums.size
  members : ∀ t, (s'.struct t).members = (s.struct t).members
  fields : ∀ t, (s'.struct t).fields = (s.struct t).fields
  field : ∀ id, s.FieldResembles s (s.field id) (s'.field id)
  values : ∀ e, List.Forall₂ (s.ValueResembles s) (s.enum e).values (s'.enum e).values

namespace Revises

theorem refl (s : Schema) : s.Revises s where
  structCount := rfl
  enumCount := rfl
  members _ := rfl
  fields _ := rfl
  field _ := .refl _
  values _ := List.forall₂_same.mpr fun v _ => .refl v

theorem nesting_bound (revises : s.Revises s') : s'.nestingBound = s.nestingBound := by
  rw [nestingBound, nestingBound, revises.structCount, revises.enumCount]

theorem shape (revises : s.Revises s') (depth : Nat) :
    ∀ base, s'.shape depth base = s.shape depth base := by
  induction depth with
  | zero => intro base; cases base <;> simp
  | succ depth ih =>
    have field : ∀ id, s'.fieldShape depth (s'.field id) = s.fieldShape depth (s.field id) := by
      intro id
      rw [field_shape_eq_iff.mpr (revises.field id) depth, fieldShape, fieldShape, ih]
    intro base
    cases base with
    | primitive kind => simp
    | reference name location => simp
    | struct t =>
      simp only [shape_struct_succ, revises.members, revises.fields, field, TypeTree.struct.injEq,
        true_and, and_true]
      apply List.map_congr_left
      intro m _
      cases m with
      | field id => simp only [memberShape, field]
      | spread name nameLocation location => rfl
    | enum e =>
      simp only [shape_enum_succ, TypeTree.enum.injEq, true_and, and_true]
      have value : ∀ v, s'.valueShape depth v = s.valueShape depth v := by
        intro v
        simp only [valueShape, ih]
      simp only [List.map_congr_left fun v _ => value v]
      exact (forall_map_eq_iff.mpr
        ((revises.values e).imp fun _ _ => value_shape_eq_iff.mpr) depth).symm

theorem resembles (revises : s.Revises s') (base : TypeBase) : s.Resembles s' base base :=
  fun depth => (revises.shape depth base).symm

theorem deep_iff (revises : s.Revises s') {n : Nat} {base : TypeBase} :
    s'.Deep n base ↔ s.Deep n base :=
  ⟨(revises.resembles base).symm.deep, (revises.resembles base).deep⟩

theorem set_field (revises : s.Revises s') {id : FieldId} {base : TypeBase}
    (resembles : s.Resembles s (s'.field id).type.base base) :
    s.Revises
      (s'.setField id { s'.field id with type := { (s'.field id).type with base } }) where
  structCount := revises.structCount
  enumCount := revises.enumCount
  members := revises.members
  fields := revises.fields
  field := by
    intro other
    rw [field_setField]
    split
    · next same => exact same.1 ▸ (revises.field id).with_base resembles
    · exact revises.field other
  values := revises.values

theorem set_struct_name (revises : s.Revises s') (t : StructId) (name : String) :
    s.Revises (s'.setStruct t { s'.struct t with name }) where
  structCount := by simpa [setStruct] using revises.structCount
  enumCount := revises.enumCount
  members := by
    intro u
    rw [struct_setStruct]
    split
    · next same => exact same.1 ▸ revises.members t
    · exact revises.members u
  fields := by
    intro u
    rw [struct_setStruct]
    split
    · next same => exact same.1 ▸ revises.fields t
    · exact revises.fields u
  field := revises.field
  values := revises.values

theorem set_enum (revises : s.Revises s') {e : EnumId} {r : Enum}
    (values : List.Forall₂ (s.ValueResembles s) (s.enum e).values r.values) :
    s.Revises (s'.setEnum e r) where
  structCount := revises.structCount
  enumCount := by simpa [setEnum] using revises.enumCount
  members := revises.members
  fields := revises.fields
  field := revises.field
  values := by
    intro i
    rw [enum_setEnum]
    split
    · next same => exact same.1 ▸ values
    · exact revises.values i

theorem redeclare (revises : s.Revises s') (definitions : List Definition)
    (errors : List ErrorKind) (operations : List Operation) :
    s.Revises { s' with definitions, errors, operations } :=
  ⟨revises.structCount, revises.enumCount, revises.members, revises.fields, revises.field,
    revises.values⟩

end Revises

end ApiSchema.Schema

/-! Schemas in which each name stands for types of one shape. What a type leads to in one of them, a
type of its shape leads to in the other. -/

namespace ApiSchema.Schema

/-- Each name is defined in both schemas or in neither, as types of one shape. -/
def SameMeanings (s s' : Schema) : Prop :=
  ∀ name, Option.Rel (fun d d' => s.Resembles s' d.type.base d'.type.base)
    (s.definition? name) (s'.definition? name)

variable {s s' : Schema}

theorem SameMeanings.symm (same : s.SameMeanings s') : s'.SameMeanings s :=
  fun name => rel_mono (rel_flip (same name)) fun _ _ alike => Resembles.symm alike

theorem Resembles.holds {t t' : StructId} {id : FieldId}
    (alike : s.Resembles s' (.struct t) (.struct t')) (held : s.Holds t id) :
    ∃ id', s'.Holds t' id' ∧ s.FieldResembles s' (s.field id) (s'.field id') := by
  obtain ⟨_, same, members, fields⟩ := alike.struct
  cases same
  rcases held with member | member
  · obtain ⟨m', present, matched⟩ := exists_right members member
    cases matched with
    | field matched => exact ⟨_, .inl present, matched⟩
  · obtain ⟨id', present, matched⟩ := exists_right fields member
    exact ⟨id', .inr present, matched⟩

theorem Resembles.leads (same : s.SameMeanings s') {base base' next : TypeBase}
    (alike : s.Resembles s' base base') (leads : s.Leads base next) :
    ∃ next', s'.Leads base' next' ∧ s.Resembles s' next next' := by
  cases leads with
  | reference defined =>
    obtain ⟨_, rfl⟩ := alike.reference
    obtain ⟨d', defined', further⟩ := exists_of_rel (same _) defined
    exact ⟨_, .reference defined', further⟩
  | field held =>
    obtain ⟨t', rfl, _⟩ := alike.struct
    obtain ⟨id', held', matched⟩ := alike.holds held
    exact ⟨_, .field held', matched.base⟩
  | spread member =>
    obtain ⟨t', rfl, members, _⟩ := alike.struct
    obtain ⟨m', present, matched⟩ := exists_right members member
    cases matched with
    | spread => exact ⟨_, .spread present, fun depth => by simp⟩
  | value member data =>
    obtain ⟨part, nests, further⟩ := alike.nests (.value member data)
    exact ⟨part, nests.leads, further⟩

theorem Resembles.reaches (same : s.SameMeanings s') {base base' last : TypeBase}
    (alike : s.Resembles s' base base') (way : s.Reaches base last) :
    ∃ last', s'.Reaches base' last' ∧ s.Resembles s' last last' := by
  induction way with
  | refl => exact ⟨base', .refl, alike⟩
  | tail _ step ih =>
    obtain ⟨middle, way', alike'⟩ := ih
    obtain ⟨last', step', alike''⟩ := alike'.leads same step
    exact ⟨last', way'.tail step', alike''⟩

end ApiSchema.Schema
