import ApiSchema.Analysis.Naming
import ApiSchema.Proofs.Schema.Revision

/-! Equality of types as descriptions: an equivalence that is blind to places, given names and the
targets of references. A part of a type can give way to an equal one, in a tree as in a schema where
types are merged. -/

namespace ApiSchema

theorem equivalence_of_kernel {α β : Type} {related : α → α → Prop} {image : α → β}
    (kernel : ∀ a b, related a b ↔ image a = image b) : Equivalence related where
  refl a := (kernel a a).mpr rfl
  symm same := (kernel _ _).mpr ((kernel _ _).mp same).symm
  trans first second := (kernel _ _).mpr (((kernel _ _).mp first).trans ((kernel _ _).mp second))

section Trees

structure FieldFrame where
  name : String
  secret : Bool
  notes : List Note
  location : Location

def FieldFrame.around (f : FieldFrame) (type : TypeTree) : FieldTree :=
  .mk f.name type f.secret f.notes f.location

/-- A type in which one part is left open: the type of a member or of a field, or the data of a value. -/
inductive TypeContext where
  | hole
  | optional (inner : TypeContext) (location : Location)
  | array (inner : TypeContext) (location : Location)
  | member (name : String) (before : List MemberTree) (frame : FieldFrame) (inner : TypeContext)
    (after : List MemberTree) (fields : List FieldTree) (location : Location)
  | field (name : String) (members : List MemberTree) (before : List FieldTree) (frame : FieldFrame)
    (inner : TypeContext) (after : List FieldTree) (location : Location)
  | data (name : String) (before : List ValueTree) (text : String) (inner : TypeContext)
    (notes : List Note) (place : Location) (after : List ValueTree) (location : Location)

def TypeContext.fill (part : TypeTree) : TypeContext → TypeTree
  | hole => part
  | optional inner location => .optional (inner.fill part) location
  | array inner location => .array (inner.fill part) location
  | member name before frame inner after fields location =>
    .struct name (before ++ .field (frame.around (inner.fill part)) :: after) fields location
  | field name members before frame inner after location =>
    .struct name members (before ++ frame.around (inner.fill part) :: after) location
  | data name before text inner notes place after location =>
    .enum name (before ++ .mk text (some (inner.fill part)) notes place :: after) location

variable {part part' : TypeTree}

theorem TypeContext.plain_fill (same : part.plain = part'.plain) (c : TypeContext) :
    (c.fill part).plain = (c.fill part').plain := by
  induction c with
  | hole => exact same
  | optional inner location ih => simp only [fill, TypeTree.plain, ih]
  | array inner location ih => simp only [fill, TypeTree.plain, ih]
  | member name before frame inner after fields location ih =>
    simp only [fill, TypeTree.plain, MemberTree.plains_eq_map, List.map_append, List.map_cons,
      MemberTree.plain, FieldFrame.around, FieldTree.plain, ih]
  | field name members before frame inner after location ih =>
    simp only [fill, TypeTree.plain, FieldTree.plains_eq_map, List.map_append, List.map_cons,
      FieldFrame.around, FieldTree.plain, ih]
  | data name before text inner notes place after location ih =>
    simp only [fill, TypeTree.plain, ValueTree.plains_eq_map, List.map_append, List.map_cons,
      ValueTree.plain, ValueTree.plainData, ih]

theorem TypeTree.is_equal_congr {t t' u u' : TypeTree} (left : t.plain = t'.plain)
    (right : u.plain = u'.plain) : t.isEqual u = t'.isEqual u' := by
  rw [Bool.eq_iff_iff, TypeTree.is_equal_iff, TypeTree.is_equal_iff, left, right]

end Trees

namespace Schema

variable {s s' : Schema} {base base' : TypeBase}

theorem Revises.same_type (revises : s.Revises s') (t u : TypeUse) : s'.sameType t u = s.sameType t u := by
  rw [Bool.eq_iff_iff, same_type_iff, same_type_iff, revises.nesting_bound]
  simp only [revises.shape]

theorem resembles_of_same_type (ends : s.Acyclic base) (ends' : s.Acyclic base')
    (same : s.sameType (.ofBase base) (.ofBase base') = true) : s.Resembles s base base' :=
  resembles_of_shape (not_deep_of_acyclic ends) (not_deep_of_acyclic ends') (same_type_iff.mp same).2

/-- The type of a field gives way to another one behind the same suffixes. -/
def replaceType (s : Schema) (id : FieldId) (base : TypeBase) : Schema :=
  s.setField id { s.field id with type := { (s.field id).type with base } }

/-- The data of a value gives way to another struct. -/
def replaceData (s : Schema) (e : EnumId) (index : Nat) (t : StructId) : Schema :=
  s.setEnum e { s.enum e with values := (s.enum e).values.modify index fun v => { v with data := some t } }

theorem values_modified {values : List EnumValue} {v : EnumValue} {index : Nat} {t t' : StructId}
    (there : values[index]? = some v) (data : v.data = some t)
    (resembles : s.Resembles s (.struct t) (.struct t')) :
    List.Forall₂ (s.ValueResembles s) values
      (values.modify index fun v => { v with data := some t' }) := by
  induction values generalizing index with
  | nil => cases there
  | cons first rest ih =>
    cases index with
    | zero =>
      cases there
      exact .cons (.with_data data resembles) (List.forall₂_same.mpr fun v _ => .refl v)
    | succ index => exact .cons (.refl first) (ih there)

theorem give_name_revises (name : String) (base : TypeBase) : s.Revises (Naming.giveName name s base) := by
  cases base with
  | struct t => exact (Revises.refl s).set_struct_name t name
  | enum e => exact (Revises.refl s).set_enum (List.forall₂_same.mpr fun v _ => .refl v)
  | _ => exact .refl s

theorem replace_type_revises {id : FieldId} (ends : s.Acyclic (s.field id).type.base)
    (ends' : s.Acyclic base) (same : s.sameType (.ofBase (s.field id).type.base) (.ofBase base) = true) :
    s.Revises (s.replaceType id base) :=
  (Revises.refl s).set_field (resembles_of_same_type ends ends' same)

theorem replace_data_revises {e : EnumId} {index : Nat} {v : EnumValue} {t t' : StructId}
    (there : (s.enum e).values[index]? = some v) (data : v.data = some t) (ends : s.Acyclic (.struct t))
    (ends' : s.Acyclic (.struct t'))
    (same : s.sameType (.ofBase (.struct t)) (.ofBase (.struct t')) = true) :
    s.Revises (s.replaceData e index t') :=
  (Revises.refl s).set_enum (values_modified there data (resembles_of_same_type ends ends' same))

/-- Equality is an equivalence of types and of their parts. It ignores places, the names that the
analysis gives and what references lead to, and no comparison changes when equal parts are exchanged:
in a tree, or in a schema for a type that is written at a field or as the data of a value. -/
theorem equal_types_exchanged :
    (Equivalence (fun t u : TypeTree => t.isEqual u = true) ∧
      Equivalence (fun f g : FieldTree => f.isEqual g = true) ∧
      Equivalence (fun m n : MemberTree => m.isEqual n = true) ∧
      Equivalence (fun v w : ValueTree => v.isEqual w = true)) ∧
    (∀ t t' u u' : TypeTree, t.plain = t'.plain → u.plain = u'.plain → t.isEqual u = t'.isEqual u') ∧
    (∀ (c : TypeContext) (part part' other : TypeTree), part.isEqual part' = true →
      (c.fill part).isEqual other = (c.fill part').isEqual other ∧
        other.isEqual (c.fill part) = other.isEqual (c.fill part')) ∧
    ∀ s : Schema,
      (∀ name base t u, (Naming.giveName name s base).sameType t u = s.sameType t u) ∧
      (∀ definitions t u, ({ s with definitions } : Schema).sameType t u = s.sameType t u) ∧
      (∀ id base, s.Acyclic (s.field id).type.base → s.Acyclic base →
        s.sameType (.ofBase (s.field id).type.base) (.ofBase base) = true →
          ∀ t u, (s.replaceType id base).sameType t u = s.sameType t u) ∧
      ∀ e index v d d', (s.enum e).values[index]? = some v → v.data = some d →
        s.Acyclic (.struct d) → s.Acyclic (.struct d') →
          s.sameType (.ofBase (.struct d)) (.ofBase (.struct d')) = true →
            ∀ t u, (s.replaceData e index d').sameType t u = s.sameType t u := by
  refine ⟨⟨?_, ?_, ?_, ?_⟩, fun t t' u u' => TypeTree.is_equal_congr, ?_, fun s => ⟨?_, ?_, ?_, ?_⟩⟩
  · exact equivalence_of_kernel TypeTree.is_equal_iff
  · exact equivalence_of_kernel FieldTree.is_equal_iff
  · exact equivalence_of_kernel MemberTree.is_equal_iff
  · exact equivalence_of_kernel ValueTree.is_equal_iff
  · intro c part part' other equal
    have whole := c.plain_fill ((part.is_equal_iff part').mp equal)
    exact ⟨TypeTree.is_equal_congr whole rfl, TypeTree.is_equal_congr rfl whole⟩
  · intro name base
    exact (give_name_revises name base).same_type
  · intro definitions t u
    exact ((Revises.refl s).redeclare definitions s.errors s.operations).same_type t u
  · intro id base ends ends' same
    exact (replace_type_revises ends ends' same).same_type
  · intro e index v d d' there data ends ends' same
    exact (replace_data_revises there data ends ends' same).same_type

def users : Schema where
  structs := #[⟨"UserAddress", [.field 0], [], ⟨"user", ⟨1, 20⟩⟩⟩, ⟨"Address", [.field 1], [], ⟨"address", ⟨1, 1⟩⟩⟩,
    ⟨"User", [.field 2], [], ⟨"user", ⟨1, 1⟩⟩⟩]
  fields := #[⟨"street", .primitive .string, false, [], ⟨"user", ⟨1, 22⟩⟩⟩,
    ⟨"street", .primitive .string, false, [], ⟨"address", ⟨1, 3⟩⟩⟩,
    ⟨"address", .ofBase (.struct 0), false, [], ⟨"user", ⟨1, 11⟩⟩⟩]

theorem users_exchanged : users.sameType (.ofBase (.struct 0)) (.ofBase (.struct 1)) = true ∧
    ∀ t u, (users.replaceType 2 (.struct 1)).sameType t u = users.sameType t u := by
  have ends : ∀ t : Nat, t < 2 → users.Acyclic (.struct t) := by
    intro t among
    refine acyclic_of_not_deep (n := 1) ?_
    rintro (_ | ⟨nests, inner⟩)
    cases nests with
    | field held =>
      obtain rfl | rfl : t = 0 ∨ t = 1 := by omega
      all_goals
        rcases held with member | member
        · obtain rfl := Member.field.inj (List.mem_singleton.mp member)
          exact not_deep_primitive 0 .string inner
        · cases member
  have same : users.sameType (.ofBase (.struct 0)) (.ofBase (.struct 1)) = true := by decide +kernel
  obtain ⟨_, _, _, schemas⟩ := equal_types_exchanged
  obtain ⟨_, _, replaced, _⟩ := schemas users
  exact ⟨same, replaced 2 (.struct 1) (ends 0 (by decide)) (ends 1 (by decide)) same⟩

end Schema

end ApiSchema
