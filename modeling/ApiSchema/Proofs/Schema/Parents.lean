import ApiSchema.Proofs.Schema.Parts
import Mathlib.Data.List.Pairwise

/-! In a treelike schema a nested type stands in one place: it is declared, or it has one parent. -/

namespace ApiSchema

def Node.base? : Node → Option TypeBase
  | .struct t => some (.struct t)
  | .enum e => some (.enum e)
  | .field _ => none

/-- A base by itself, if others can be nested in it. -/
def TypeBase.itself : TypeBase → List TypeBase
  | .primitive _ | .reference .. => []
  | base => [base]

theorem TypeBase.mem_itself {base other : TypeBase} :
    other ∈ base.itself ↔ other = base ∧ base.IsNested := by
  cases base <;> simp [itself, IsNested]

theorem Node.base_inj {x y : Node} {base : TypeBase} (first : base ∈ x.base?)
    (second : base ∈ y.base?) : x = y := by
  cases x <;> cases y <;> simp_all [base?] <;> cases first <;> cases second <;> rfl

namespace Schema

def memberBase? (s : Schema) : Member → Option TypeBase
  | .field id => some (s.field id).type.base
  | .spread .. => none

def heldBases (s : Schema) (members : List Member) (ids : List FieldId) : List TypeBase :=
  members.filterMap s.memberBase? ++ ids.map fun id => (s.field id).type.base

def below (s : Schema) : TypeBase → List TypeBase
  | .struct t => s.heldBases (s.struct t).members (s.struct t).fields
  | .enum e => (s.enum e).values.filterMap fun v => v.data.map .struct
  | _ => []

/-- What is nested in a base down to some depth, without the fields between. -/
def inner (s : Schema) : (depth : Nat) → TypeBase → List TypeBase
  | 0, _ => []
  | depth + 1, base => base.itself ++ (s.below base).flatMap (inner s depth)

variable {s : Schema}

theorem mem_below {base part : TypeBase} : part ∈ s.below base ↔ s.Nests base part := by
  constructor
  · intro member
    cases base with
    | struct t =>
      simp only [below, heldBases, List.mem_append, List.mem_filterMap, List.mem_map] at member
      rcases member with ⟨m, member, base⟩ | ⟨id, member, rfl⟩
      · cases m with
        | field id =>
          cases base
          exact .field (.inl member)
        | spread => cases base
      · exact .field (.inr member)
    | enum e =>
      simp only [below, List.mem_filterMap, Option.map_eq_some_iff] at member
      obtain ⟨v, member, t, data, rfl⟩ := member
      exact .value member data
    | _ => cases member
  · intro nests
    cases nests with
    | field held =>
      simp only [below, heldBases, List.mem_append, List.mem_filterMap, List.mem_map]
      rcases held with member | member
      · exact .inl ⟨_, member, rfl⟩
      · exact .inr ⟨_, member, rfl⟩
    | value member data =>
      simp only [below, List.mem_filterMap, Option.map_eq_some_iff]
      exact ⟨_, member, _, data, rfl⟩

section Flattening

variable {descend : TypeBase → List Node} {descend' : TypeBase → List TypeBase}
  (same : ∀ base, (descend base).filterMap Node.base? = descend' base)

include same

theorem base_of_held_parts (members : List Member) (ids : List FieldId) :
    (s.heldParts descend members ids).filterMap Node.base? =
      (s.heldBases members ids).flatMap descend' := by
  have field : ∀ id, (s.fieldParts descend id).filterMap Node.base? =
      descend' (s.field id).type.base := by
    intro id
    rw [fieldParts, List.filterMap_cons, same]
    rfl
  simp only [heldParts, heldBases, List.filterMap_append, List.filterMap_flatMap,
    List.flatMap_append, List.flatMap_map, field]
  congr 1
  induction members with
  | nil => rfl
  | cons m rest ih =>
    rw [List.flatMap_cons, List.filterMap_cons, ih]
    cases m with
    | field id => rw [memberParts, field]; rfl
    | spread => rfl

theorem base_of_value_parts (values : List EnumValue) :
    (values.flatMap (valueParts descend)).filterMap Node.base? =
      (values.filterMap fun v => v.data.map TypeBase.struct).flatMap descend' := by
  induction values with
  | nil => rfl
  | cons v rest ih =>
    rw [List.flatMap_cons, List.filterMap_append, List.filterMap_cons, ih]
    cases data : v.data with
    | none => simp [valueParts, data]
    | some t => simp [valueParts, data, same]

end Flattening

theorem base_of_parts (depth : Nat) :
    ∀ base, (s.parts depth base).filterMap Node.base? = s.inner depth base := by
  induction depth with
  | zero => intro base; rfl
  | succ depth ih =>
    intro base
    cases base with
    | primitive kind => rfl
    | reference name location => rfl
    | struct t =>
      rw [parts, List.filterMap_cons, base_of_held_parts ih]
      rfl
    | enum e =>
      rw [parts, List.filterMap_cons, base_of_value_parts ih]
      rfl

def children (s : Schema) (base : TypeBase) : List TypeBase :=
  (s.below base).flatMap TypeBase.itself

theorem mem_children {base part : TypeBase} :
    part ∈ s.children base ↔ s.Nests base part ∧ part.IsNested := by
  simp only [children, List.mem_flatMap, mem_below, TypeBase.mem_itself]
  constructor
  · rintro ⟨_, nests, rfl, nested⟩
    exact ⟨nests, nested⟩
  · rintro ⟨nests, nested⟩
    exact ⟨part, nests, rfl, nested⟩

theorem children_of_itself (base : TypeBase) :
    base.itself.flatMap s.children = s.children base := by
  cases base <;> simp [TypeBase.itself, children, below]

theorem inner_succ_perm (depth : Nat) :
    ∀ base, (s.inner (depth + 1) base).Perm
      (base.itself ++ (s.inner depth base).flatMap s.children) := by
  induction depth with
  | zero =>
    intro base
    have none : (s.below base).flatMap (s.inner 0) = [] :=
      List.flatMap_eq_nil_iff.mpr fun _ _ => rfl
    change (base.itself ++ (s.below base).flatMap (s.inner 0)).Perm (base.itself ++ [])
    rw [none]
  | succ depth ih =>
    intro base
    rw [inner]
    apply List.Perm.append_left
    calc (s.below base).flatMap (s.inner (depth + 1))
        |>.Perm ((s.below base).flatMap fun b =>
          b.itself ++ (s.inner depth b).flatMap s.children) :=
            List.Perm.flatMap_left _ fun b _ => ih b
      _ |>.Perm ((s.below base).flatMap TypeBase.itself ++
          (s.below base).flatMap fun b => (s.inner depth b).flatMap s.children) :=
            (List.flatMap_append_perm ..).symm
      _ = (s.inner (depth + 1) base).flatMap s.children := by
            rw [inner, List.flatMap_append, children_of_itself, List.flatMap_assoc]
            rfl

theorem mem_inner_of_contains {base part : TypeBase} (contains : s.Contains base part)
    (nested : part.IsNested) : ∃ least, ∀ depth ≥ least, part ∈ s.inner depth base := by
  induction contains using Relation.ReflTransGen.head_induction_on with
  | refl =>
    refine ⟨1, fun depth enough => ?_⟩
    obtain ⟨depth, rfl⟩ := Nat.exists_eq_add_of_le' enough
    exact List.mem_append_left _ (TypeBase.mem_itself.mpr ⟨rfl, nested⟩)
  | head nests _ ih =>
    obtain ⟨least, inside⟩ := ih
    refine ⟨least + 1, fun depth enough => ?_⟩
    obtain ⟨depth, rfl⟩ := Nat.exists_eq_add_of_le' (Nat.le_of_add_left_le enough)
    refine List.mem_append_right _ (List.mem_flatMap.mpr ⟨_, mem_below.mpr nests, ?_⟩)
    exact inside depth (by omega)

def declaredBases (s : Schema) : List TypeBase :=
  s.errors.map (fun e => e.data.base) ++ (s.definitions.map (fun d => d.type.base) ++
    s.operations.flatMap fun o => s.heldBases o.members o.args ++ [o.returns.base])

theorem mem_declared_bases {base : TypeBase} (declared : s.Declares base)
    (nested : base.IsNested) : base ∈ s.declaredBases := by
  simp only [declaredBases, heldBases, List.mem_append, List.mem_map, List.mem_flatMap,
    List.mem_filterMap, List.mem_singleton]
  cases declared with
  | definition member => exact .inr (.inl ⟨_, member, rfl⟩)
  | error member => exact .inl ⟨_, member, rfl⟩
  | argument member held =>
    rcases held with written | held
    · exact .inr (.inr ⟨_, member, .inl (.inl ⟨_, written, rfl⟩)⟩)
    · exact .inr (.inr ⟨_, member, .inl (.inr ⟨_, held, rfl⟩)⟩)
  | spread => cases nested
  | returns member => exact .inr (.inr ⟨_, member, .inr rfl⟩)

theorem base_of_declared_parts (depth : Nat) :
    (s.declaredParts depth).filterMap Node.base? = s.declaredBases.flatMap (s.inner depth) := by
  have operation : ∀ o : Operation, (s.operationParts (s.parts depth) o).filterMap Node.base? =
      (s.heldBases o.members o.args ++ [o.returns.base]).flatMap (s.inner depth) := by
    intro o
    rw [operationParts, List.filterMap_append, base_of_held_parts (base_of_parts depth),
      base_of_parts, List.flatMap_append, List.flatMap_singleton]
  simp only [declaredParts, declaredBases, List.filterMap_append, List.filterMap_flatMap,
    List.flatMap_append, List.flatMap_map, List.flatMap_assoc, base_of_parts, operation]

def Placed (s : Schema) (base : TypeBase) : Prop :=
  ∃ root, s.Declares root ∧ s.Contains root base

theorem placed_of_declares {base : TypeBase} (declared : s.Declares base) : s.Placed base :=
  ⟨base, declared, .refl⟩

theorem Placed.contains {base part : TypeBase} (placed : s.Placed base)
    (contains : s.Contains base part) : s.Placed part := by
  obtain ⟨root, declared, way⟩ := placed
  exact ⟨root, declared, way.trans contains⟩

theorem Placed.mem_inner {base : TypeBase} (placed : s.Placed base) (nested : base.IsNested) :
    ∃ least, ∀ depth ≥ least, base ∈ s.declaredBases.flatMap (s.inner depth) := by
  obtain ⟨root, declared, contains⟩ := placed
  have outer : root.IsNested := by
    rcases Relation.ReflTransGen.cases_head contains with rfl | ⟨_, nests, _⟩
    · exact nested
    · exact nests.nested
  obtain ⟨least, inside⟩ := mem_inner_of_contains contains nested
  exact ⟨least, fun depth enough => List.mem_flatMap.mpr
    ⟨root, mem_declared_bases declared outer, inside depth enough⟩⟩

/-- A nested type stands in one place. -/
structure Unshared (s : Schema) : Prop where
  parent : ∀ {first second base}, s.Placed first → s.Placed second →
    s.Nests first base → s.Nests second base → base.IsNested → first = second
  top : ∀ {first base}, s.Placed first → s.Nests first base → base.IsNested → ¬ s.Declares base

theorem Treelike.unshared (treelike : s.Treelike) : s.Unshared := by
  have once : ∀ depth, (s.declaredBases.flatMap TypeBase.itself ++
      (s.declaredBases.flatMap (s.inner depth)).flatMap s.children).Nodup := by
    intro depth
    have nodup : (s.declaredBases.flatMap (s.inner (depth + 1))).Nodup := by
      rw [← base_of_declared_parts]
      exact (treelike.once (depth + 1)).filterMap fun _ _ _ => Node.base_inj
    refine (List.Perm.nodup_iff ?_).mp nodup
    calc s.declaredBases.flatMap (s.inner (depth + 1))
        |>.Perm (s.declaredBases.flatMap fun b =>
          b.itself ++ (s.inner depth b).flatMap s.children) :=
            List.Perm.flatMap_left _ fun b _ => inner_succ_perm depth b
      _ |>.Perm (s.declaredBases.flatMap TypeBase.itself ++
          s.declaredBases.flatMap fun b => (s.inner depth b).flatMap s.children) :=
            (List.flatMap_append_perm ..).symm
      _ = _ := by rw [List.flatMap_assoc]
  constructor
  · intro first second base placed placed' nests nests' nested
    obtain ⟨least, inside⟩ := placed.mem_inner nests.nested
    obtain ⟨least', inside'⟩ := placed'.mem_inner nests'.nested
    by_contra different
    have apart := (List.nodup_flatMap.mp (List.nodup_append.mp (once (max least least'))).2.1).2
    have : Std.Symm (Function.onFun List.Disjoint s.children) := ⟨fun _ _ disjoint _ here there => disjoint there here⟩
    exact apart.forall (inside _ (Nat.le_max_left ..))
      (inside' _ (Nat.le_max_right ..)) different (mem_children.mpr ⟨nests, nested⟩)
      (mem_children.mpr ⟨nests', nested⟩)
  · intro first base placed nests nested declared
    obtain ⟨least, inside⟩ := placed.mem_inner nests.nested
    have apart := (List.nodup_append.mp (once least)).2.2
    refine apart base ?_ base ?_ rfl
    · exact List.mem_flatMap.mpr
        ⟨base, mem_declared_bases declared nested, TypeBase.mem_itself.mpr ⟨rfl, nested⟩⟩
    · exact List.mem_flatMap.mpr
        ⟨first, inside least (Nat.le_refl _), mem_children.mpr ⟨nests, nested⟩⟩

end Schema

end ApiSchema
