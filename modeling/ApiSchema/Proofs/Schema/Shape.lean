import ApiSchema.Schema.Unfold
import ApiSchema.Proofs.Running
import ApiSchema.Proofs.Schema.Nesting
import ApiSchema.Proofs.Tree.Plain
import Mathlib.Data.List.Forall2

/-! The shape of a type: what is written out of it to some depth, without places and given names.
Types of one shape are made of parts of one shape. -/

namespace ApiSchema

def TypeTree.isWrapped : TypeTree → Bool
  | .optional .. | .array .. => true
  | _ => false

section Lists

variable {α β γ δ : Type} {xs : List α} {ys : List β}

theorem map_eq_of_map_eq {f : α → γ} {g : β → γ} {f' : α → δ} {g' : β → δ}
    (finer : ∀ x y, f x = g y → f' x = g' y) (equal : xs.map f = ys.map g) :
    xs.map f' = ys.map g' := by
  induction xs generalizing ys with
  | nil => cases ys <;> simp_all
  | cons x xs ih =>
    cases ys with
    | nil => cases equal
    | cons y ys =>
      simp only [List.map_cons, List.cons.injEq] at equal ⊢
      exact ⟨finer x y equal.1, ih equal.2⟩

theorem forall_map_eq_iff {f : Nat → α → γ} {g : Nat → β → γ} :
    (∀ n, xs.map (f n) = ys.map (g n)) ↔ List.Forall₂ (fun x y => ∀ n, f n x = g n y) xs ys := by
  induction xs generalizing ys with
  | nil => cases ys <;> simp
  | cons x xs ih =>
    cases ys with
    | nil => simp
    | cons y ys => simp [← ih, forall_and]

end Lists

namespace Schema

theorem plain_wrap (suffixes : List Suffix) (base : TypeTree) :
    (wrap suffixes base).plain = wrap suffixes base.plain := by
  induction suffixes with
  | nil => rfl
  | cons suffix rest ih =>
    cases suffix <;> simp [wrap, TypeTree.plain] <;> exact ih

theorem wrap_inj {suffixes others : List Suffix} {base other : TypeTree}
    (bare : base.isWrapped = false) (otherBare : other.isWrapped = false) :
    wrap suffixes base = wrap others other ↔ suffixes = others ∧ base = other := by
  induction suffixes generalizing others with
  | nil =>
    cases others with
    | nil => simp [wrap]
    | cons suffix rest =>
      have wrapped : (wrap (suffix :: rest) other).isWrapped = true := by cases suffix <;> rfl
      constructor
      · intro same
        rw [← same] at wrapped
        exact absurd (bare.symm.trans wrapped) (by decide)
      · rintro ⟨same, _⟩
        cases same
  | cons suffix rest ih =>
    cases others with
    | nil =>
      have wrapped : (wrap (suffix :: rest) base).isWrapped = true := by cases suffix <;> rfl
      constructor
      · intro same
        rw [same] at wrapped
        exact absurd (otherBare.symm.trans wrapped) (by decide)
      · rintro ⟨same, _⟩
        cases same
    | cons suffix' rest' =>
      have inner := @ih rest'
      simp only [wrap] at inner
      cases suffix <;> cases suffix' <;> simp [wrap, inner]

def shape (s : Schema) (depth : Nat) (base : TypeBase) : TypeTree := (s.unfold depth base).plain

def fieldShape (s : Schema) (depth : Nat) (f : Field) : FieldTree :=
  .mk f.name (wrap f.type.suffixes (s.shape depth f.type.base)) f.secret (f.notes.map Note.plain) {}

def memberShape (s : Schema) (depth : Nat) : Member → MemberTree
  | .field id => .field (s.fieldShape depth (s.field id))
  | .spread name _ _ => .spread name {} {}

def valueShape (s : Schema) (depth : Nat) (v : EnumValue) : ValueTree :=
  .mk v.text (v.data.map fun t => s.shape depth (.struct t)) (v.notes.map Note.plain) {}

section Equations

variable (s : Schema) (depth : Nat)

@[simp] theorem shape_primitive (kind : Primitive) :
    s.shape depth (.primitive kind) = .primitive kind {} := by
  cases depth <;> rfl

@[simp] theorem shape_reference (name : String) (location : Location) :
    s.shape depth (.reference name location) = .reference name {} := by
  cases depth <;> rfl

@[simp] theorem shape_struct_zero (t : StructId) :
    s.shape 0 (.struct t) = .struct "" [] [] {} := rfl

@[simp] theorem shape_enum_zero (e : EnumId) : s.shape 0 (.enum e) = .enum "" [] {} := rfl

theorem shape_struct_succ (t : StructId) :
    s.shape (depth + 1) (.struct t) =
      .struct "" ((s.struct t).members.map (s.memberShape depth))
        ((s.struct t).fields.map fun id => s.fieldShape depth (s.field id)) {} := by
  simp only [shape, unfold, TypeTree.plain, MemberTree.plains_eq_map, FieldTree.plains_eq_map,
    List.map_map, TypeTree.struct.injEq, true_and, and_true]
  constructor
  · apply List.map_congr_left
    intro m _
    cases m <;> simp [MemberTree.plain, FieldTree.plain, memberShape, fieldShape, shape, plain_wrap]
  · apply List.map_congr_left
    intro id _
    simp [FieldTree.plain, fieldShape, shape, plain_wrap]

theorem shape_enum_succ (e : EnumId) :
    s.shape (depth + 1) (.enum e) = .enum "" ((s.enum e).values.map (s.valueShape depth)) {} := by
  simp only [shape, unfold, TypeTree.plain, ValueTree.plains_eq_map, List.map_map,
    TypeTree.enum.injEq, true_and, and_true]
  apply List.map_congr_left
  intro v _
  cases data : v.data <;> simp [ValueTree.plain, ValueTree.plainData, valueShape, shape, data]

theorem shape_bare (base : TypeBase) : (s.shape depth base).isWrapped = false := by
  cases base with
  | primitive kind => simp [TypeTree.isWrapped]
  | reference name location => simp [TypeTree.isWrapped]
  | struct t => cases depth <;> simp [shape_struct_succ, TypeTree.isWrapped]
  | enum e => cases depth <;> simp [shape_enum_succ, TypeTree.isWrapped]

end Equations

theorem same_type_iff {s : Schema} {t u : TypeUse} :
    s.sameType t u = true ↔
      t.suffixes = u.suffixes ∧ s.shape s.nestingBound t.base = s.shape s.nestingBound u.base := by
  simp only [sameType, TypeTree.is_equal_iff, tree, plain_wrap]
  exact wrap_inj (s.shape_bare _ _) (s.shape_bare _ _)

variable {s s' : Schema}

/-- Two types have one shape to every depth. -/
def Resembles (s s' : Schema) (base base' : TypeBase) : Prop :=
  ∀ depth, s.shape depth base = s'.shape depth base'

structure FieldResembles (s s' : Schema) (f f' : Field) : Prop where
  name : f.name = f'.name
  suffixes : f.type.suffixes = f'.type.suffixes
  base : s.Resembles s' f.type.base f'.type.base
  secret : f.secret = f'.secret
  notes : f.notes.map Note.plain = f'.notes.map Note.plain

inductive MemberResembles (s s' : Schema) : Member → Member → Prop where
  | field {id id'} (same : s.FieldResembles s' (s.field id) (s'.field id')) :
    MemberResembles s s' (.field id) (.field id')
  | spread {name nameLocation location nameLocation' location'} :
    MemberResembles s s' (.spread name nameLocation location)
      (.spread name nameLocation' location')

structure ValueResembles (s s' : Schema) (v v' : EnumValue) : Prop where
  text : v.text = v'.text
  data : Option.Rel (fun t t' => s.Resembles s' (.struct t) (.struct t')) v.data v'.data
  notes : v.notes.map Note.plain = v'.notes.map Note.plain

theorem field_shape_eq_iff {f f' : Field} :
    (∀ depth, s.fieldShape depth f = s'.fieldShape depth f') ↔ s.FieldResembles s' f f' := by
  simp only [fieldShape, FieldTree.mk.injEq,
    wrap_inj (s.shape_bare _ _) (s'.shape_bare _ _), and_true]
  constructor
  · intro same
    obtain ⟨name, ⟨suffixes, _⟩, secret, notes⟩ := same 0
    exact ⟨name, suffixes, fun depth => (same depth).2.1.2, secret, notes⟩
  · rintro ⟨name, suffixes, base, secret, notes⟩ depth
    exact ⟨name, ⟨suffixes, base depth⟩, secret, notes⟩

theorem member_shape_eq_iff {m m' : Member} :
    (∀ depth, s.memberShape depth m = s'.memberShape depth m') ↔ s.MemberResembles s' m m' := by
  cases m with
  | field id =>
    cases m' with
    | field id' =>
      simp only [memberShape, MemberTree.field.injEq, field_shape_eq_iff]
      exact ⟨.field, fun | .field same => same⟩
    | spread name nameLocation location =>
      simp only [memberShape, reduceCtorEq, forall_const, false_iff]
      intro same
      cases same
  | spread name nameLocation location =>
    cases m' with
    | field id' =>
      simp only [memberShape, reduceCtorEq, forall_const, false_iff]
      intro same
      cases same
    | spread name' nameLocation' location' =>
      simp only [memberShape, MemberTree.spread.injEq, and_true, forall_const]
      exact ⟨fun same => same ▸ .spread, fun | .spread => rfl⟩

theorem value_shape_eq_iff {v v' : EnumValue} :
    (∀ depth, s.valueShape depth v = s'.valueShape depth v') ↔ s.ValueResembles s' v v' := by
  simp only [valueShape, ValueTree.mk.injEq, and_true]
  constructor
  · intro same
    refine ⟨(same 0).1, ?_, (same 0).2.2⟩
    cases data : v.data with
    | none =>
      cases data' : v'.data with
      | none => exact .none
      | some t' => simp [data, data'] at same
    | some t =>
      cases data' : v'.data with
      | none => simp [data, data'] at same
      | some t' =>
        refine .some fun depth => ?_
        simpa [data, data'] using (same depth).2.1
  · rintro ⟨text, data, notes⟩ depth
    refine ⟨text, ?_, notes⟩
    cases v
    cases v'
    cases data with
    | none => rfl
    | some same => exact congrArg some (same depth)

theorem ValueResembles.of_data {v v' : EnumValue} {t' : StructId}
    (same : s.ValueResembles s' v v') (data : v'.data = some t') :
    ∃ t, v.data = some t ∧ s.Resembles s' (.struct t) (.struct t') :=
  exists_of_rel (rel_flip same.data) data

namespace Resembles

theorem refl (base : TypeBase) : s.Resembles s base base := fun _ => rfl

theorem symm {base base' : TypeBase} (same : s.Resembles s' base base') :
    s'.Resembles s base' base := fun depth => (same depth).symm

theorem trans {s'' : Schema} {base base' base'' : TypeBase} (first : s.Resembles s' base base')
    (second : s'.Resembles s'' base' base'') : s.Resembles s'' base base'' :=
  fun depth => (first depth).trans (second depth)

theorem primitive {kind : Primitive} {base : TypeBase}
    (same : s.Resembles s' (.primitive kind) base) : base = .primitive kind := by
  have := same 0
  cases base <;> simp_all

theorem reference {name : String} {location : Location} {base : TypeBase}
    (same : s.Resembles s' (.reference name location) base) :
    ∃ location', base = .reference name location' := by
  have := same 0
  cases base <;> simp_all

theorem struct {t : StructId} {base : TypeBase} (same : s.Resembles s' (.struct t) base) :
    ∃ t', base = .struct t' ∧
      List.Forall₂ (s.MemberResembles s') (s.struct t).members (s'.struct t').members ∧
      List.Forall₂ (fun id id' => s.FieldResembles s' (s.field id) (s'.field id'))
        (s.struct t).fields (s'.struct t').fields := by
  cases base with
  | struct t' =>
    have inner := fun depth => same (depth + 1)
    simp only [shape_struct_succ, TypeTree.struct.injEq, true_and, and_true, forall_and,
      forall_map_eq_iff, member_shape_eq_iff, field_shape_eq_iff] at inner
    exact ⟨t', rfl, inner⟩
  | _ =>
    have := same 0
    simp at this

theorem enum {e : EnumId} {base : TypeBase} (same : s.Resembles s' (.enum e) base) :
    ∃ e', base = .enum e' ∧
      List.Forall₂ (s.ValueResembles s') (s.enum e).values (s'.enum e').values := by
  cases base with
  | enum e' =>
    have inner := fun depth => same (depth + 1)
    simp only [shape_enum_succ, TypeTree.enum.injEq, true_and, and_true,
      forall_map_eq_iff, value_shape_eq_iff] at inner
    exact ⟨e', rfl, inner⟩
  | _ =>
    have := same 0
    simp at this

end Resembles

theorem ValueResembles.symm {v v' : EnumValue} (same : s.ValueResembles s' v v') :
    s'.ValueResembles s v' v :=
  ⟨same.text.symm, rel_mono (rel_flip same.data) fun _ _ alike depth => (alike depth).symm,
    same.notes.symm⟩

theorem FieldResembles.symm {f f' : Field} (same : s.FieldResembles s' f f') :
    s'.FieldResembles s f' f :=
  ⟨same.name.symm, same.suffixes.symm, same.base.symm, same.secret.symm, same.notes.symm⟩

theorem FieldResembles.trans {s'' : Schema} {f f' f'' : Field} (first : s.FieldResembles s' f f')
    (second : s'.FieldResembles s'' f' f'') : s.FieldResembles s'' f f'' :=
  ⟨first.name.trans second.name, first.suffixes.trans second.suffixes, first.base.trans second.base,
    first.secret.trans second.secret, first.notes.trans second.notes⟩

theorem MemberResembles.symm {m m' : Member} (same : s.MemberResembles s' m m') :
    s'.MemberResembles s m' m := by
  cases same with
  | field same => exact .field same.symm
  | spread => exact .spread

theorem MemberResembles.trans {s'' : Schema} {m m' m'' : Member} (first : s.MemberResembles s' m m')
    (second : s'.MemberResembles s'' m' m'') : s.MemberResembles s'' m m'' := by
  cases first with
  | field same =>
    cases second with
    | field same' => exact .field (same.trans same')
  | spread =>
    cases second with
    | spread => exact .spread

theorem Resembles.nests_as {base base' part : TypeBase} {label : String}
    (alike : s.Resembles s' base base') (nests : s.NestsAs base label part) :
    ∃ part', s'.NestsAs base' label part' ∧ s.Resembles s' part part' := by
  cases nests with
  | @field t id held =>
    obtain ⟨t', rfl, members, fields⟩ := alike.struct
    rcases held with member | member
    · obtain ⟨_, present, same⟩ := exists_right members member
      cases same with
      | field same => exact ⟨_, same.name ▸ .field (.inl present), same.base⟩
    · obtain ⟨_, present, same⟩ := exists_right fields member
      exact ⟨_, same.name ▸ .field (.inr present), same.base⟩
  | @value e v t member data =>
    obtain ⟨e', rfl, values⟩ := alike.enum
    obtain ⟨_, present, same⟩ := exists_right values member
    obtain ⟨t', data', inner⟩ := exists_of_rel same.data data
    exact ⟨_, same.text ▸ .value present data', inner⟩

theorem Resembles.nests {base base' part : TypeBase} (same : s.Resembles s' base base')
    (nests : s.Nests base part) : ∃ part', s'.Nests base' part' ∧ s.Resembles s' part part' := by
  obtain ⟨label, nests⟩ := nests.exists_label
  obtain ⟨part', nests', alike⟩ := same.nests_as nests
  exact ⟨part', nests'.nests, alike⟩

theorem Resembles.nested {base base' : TypeBase} (same : s.Resembles s' base base')
    (nested : base.IsNested) : base'.IsNested := by
  cases base with
  | struct t =>
    obtain ⟨t', rfl, _⟩ := same.struct
    trivial
  | enum e =>
    obtain ⟨e', rfl, _⟩ := same.enum
    trivial
  | _ => cases nested

theorem Resembles.deep {n : Nat} {base base' : TypeBase} (same : s.Resembles s' base base')
    (deep : s.Deep n base) : s'.Deep n base' := by
  induction deep generalizing base' with
  | here nested => exact .here (same.nested nested)
  | inside nests _ ih =>
    obtain ⟨part', nests', alike⟩ := same.nests nests
    exact .inside nests' (ih alike)

theorem shape_eq_of_succ {depth : Nat} :
    ∀ {base base' : TypeBase}, s.shape (depth + 1) base = s'.shape (depth + 1) base' →
      s.shape depth base = s'.shape depth base' := by
  induction depth with
  | zero =>
    intro base base' same
    cases base <;> cases base' <;> simp_all [shape_struct_succ, shape_enum_succ]
  | succ depth ih =>
    have fields : ∀ f f' : Field, s.fieldShape (depth + 1) f = s'.fieldShape (depth + 1) f' →
        s.fieldShape depth f = s'.fieldShape depth f' := by
      intro f f' same
      simp only [fieldShape, FieldTree.mk.injEq, wrap_inj (s.shape_bare _ _) (s'.shape_bare _ _)]
        at same ⊢
      exact ⟨same.1, ⟨same.2.1.1, ih same.2.1.2⟩, same.2.2⟩
    intro base base' same
    cases base with
    | primitive kind => cases base' <;> simp_all [shape_struct_succ, shape_enum_succ]
    | reference name location => cases base' <;> simp_all [shape_struct_succ, shape_enum_succ]
    | struct t =>
      cases base' with
      | struct t' =>
        simp only [s.shape_struct_succ (depth + 1), s'.shape_struct_succ (depth + 1),
          TypeTree.struct.injEq, true_and, and_true] at same
        simp only [shape_struct_succ, TypeTree.struct.injEq, true_and, and_true]
        refine ⟨map_eq_of_map_eq ?_ same.1, map_eq_of_map_eq (fun id id' => fields _ _) same.2⟩
        intro m m' equal
        cases m with
        | field id =>
          cases m' with
          | field id' =>
            simp only [memberShape, MemberTree.field.injEq] at equal ⊢
            exact fields _ _ equal
          | spread name nameLocation location => cases equal
        | spread name nameLocation location =>
          cases m' with
          | field id' => cases equal
          | spread name' nameLocation' location' => exact equal
      | _ => simp [shape_struct_succ, shape_enum_succ] at same
    | enum e =>
      cases base' with
      | enum e' =>
        simp only [s.shape_enum_succ (depth + 1), s'.shape_enum_succ (depth + 1),
          TypeTree.enum.injEq, true_and, and_true] at same
        simp only [shape_enum_succ, TypeTree.enum.injEq, true_and, and_true]
        refine map_eq_of_map_eq ?_ same
        intro v v' equal
        simp only [valueShape, ValueTree.mk.injEq, and_true] at equal ⊢
        refine ⟨equal.1, ?_, equal.2.2⟩
        cases data : v.data with
        | none => cases data' : v'.data <;> simp_all
        | some t =>
          cases data' : v'.data with
          | none => simp_all
          | some t' =>
            simp only [data, data', Option.map_some, Option.some.injEq] at equal ⊢
            exact ih equal.2.1
      | _ => simp [shape_struct_succ, shape_enum_succ] at same

theorem shape_eq_of_le {depth n : Nat} {base base' : TypeBase} (le : depth ≤ n)
    (same : s.shape n base = s'.shape n base') : s.shape depth base = s'.shape depth base' := by
  induction le with
  | refl => exact same
  | step _ ih => exact ih (shape_eq_of_succ same)

theorem shape_stable {n : Nat} :
    ∀ {base : TypeBase}, ¬ s.Deep n base → ∀ extra, s.shape (n + extra) base = s.shape n base := by
  induction n with
  | zero =>
    intro base shallow extra
    cases base with
    | primitive kind => simp
    | reference name location => simp
    | _ => exact absurd (.here trivial) shallow
  | succ n ih =>
    intro base shallow extra
    rw [Nat.add_right_comm]
    have fields : ∀ f : Field, s.Nests base f.type.base →
        s.fieldShape (n + extra) f = s.fieldShape n f := by
      intro f nests
      simp only [fieldShape, FieldTree.mk.injEq, true_and, and_true]
      rw [ih (fun deep => shallow (.inside nests deep)) extra]
    cases base with
    | primitive kind => simp
    | reference name location => simp
    | struct t =>
      simp only [shape_struct_succ, TypeTree.struct.injEq, true_and, and_true]
      constructor
      · apply List.map_congr_left
        intro m member
        cases m with
        | field id =>
          simp only [memberShape, MemberTree.field.injEq]
          exact fields _ (.field (.inl member))
        | spread name nameLocation location => rfl
      · apply List.map_congr_left
        intro id member
        exact fields _ (.field (.inr member))
    | enum e =>
      simp only [shape_enum_succ, TypeTree.enum.injEq, true_and, and_true]
      apply List.map_congr_left
      intro v member
      simp only [valueShape, ValueTree.mk.injEq, true_and, and_true]
      cases data : v.data with
      | none => rfl
      | some t => exact congrArg some (ih (fun deep => shallow (.inside (.value member data) deep)) extra)

theorem resembles_of_shape {n : Nat} {base base' : TypeBase} (shallow : ¬ s.Deep n base)
    (shallow' : ¬ s'.Deep n base') (same : s.shape n base = s'.shape n base') :
    s.Resembles s' base base' := by
  intro depth
  rcases Nat.le_total depth n with le | le
  · exact shape_eq_of_le le same
  · obtain ⟨extra, rfl⟩ := Nat.exists_eq_add_of_le le
    rw [shape_stable shallow, shape_stable shallow', same]

end Schema

end ApiSchema
