import ApiSchema.Analysis
import ApiSchema.Schema.OfTree
import ApiSchema.Proofs.Schema.Parts

/-! Schemas of declarations as written are trees. Every struct, enum and field is new when it is
added, and so it is part of one thing alone. -/

namespace ApiSchema.Schema

/-- A later schema with all records that there were. -/
def Extends (s s' : Schema) : Prop := ∀ x, s.Records x → s'.Records x ∧ s.Agrees s' x

/-- What some contents of a schema consist of does not depend on the records outside of them. -/
def Local (contents : Schema → List Node) : Prop :=
  ∀ s s', (∀ x ∈ contents s, s.Agrees s' x) → contents s' = contents s

/-- Between two schemas only some contents have been added, each node once. -/
structure Lays (s s' : Schema) (contents : Schema → List Node) : Prop where
  extended : s.Extends s'
  congr : Local contents
  added : ∀ x ∈ contents s', s'.Records x ∧ ¬ s.Records x
  once : (contents s').Nodup

variable {s s₁ s₂ : Schema} {contents others : Schema → List Node} {depth : Nat}

theorem Extends.refl (s : Schema) : s.Extends s :=
  fun x known => ⟨known, by cases x <;> rfl⟩

theorem Extends.trans (first : s.Extends s₁) (second : s₁.Extends s₂) : s.Extends s₂ := by
  intro x known
  obtain ⟨known, agrees⟩ := first x known
  obtain ⟨known, agrees'⟩ := second x known
  exact ⟨known, by cases x <;> exact agrees'.trans agrees⟩

namespace Lays

theorem nothing (s : Schema) : Lays s s fun _ => [] where
  extended := .refl s
  congr _ _ _ := rfl
  added := nofun
  once := .nil

theorem forget (lays : Lays s s₁ contents) : Lays s s₁ fun _ => [] where
  extended := lays.extended
  congr _ _ _ := rfl
  added := nofun
  once := .nil

theorem kept (first : Lays s s₁ contents) (extended : s₁.Extends s₂) : contents s₂ = contents s₁ :=
  first.congr _ _ fun x inside => (extended x (first.added x inside).1).2

theorem join (first : Lays s s₁ contents) (second : Lays s₁ s₂ others) :
    Lays s s₂ fun s => contents s ++ others s where
  extended := first.extended.trans second.extended
  congr s s' agrees := by
    dsimp only at agrees ⊢
    rw [first.congr s s' fun x inside => agrees x (List.mem_append_left _ inside),
      second.congr s s' fun x inside => agrees x (List.mem_append_right _ inside)]
  added x inside := by
    rw [first.kept second.extended] at inside
    rcases List.mem_append.mp inside with inside | inside
    · have added := first.added x inside
      exact ⟨(second.extended x added.1).1, added.2⟩
    · have added := second.added x inside
      exact ⟨added.1, fun known => added.2 (first.extended x known).1⟩
  once := by
    rw [first.kept second.extended]
    refine List.nodup_append.mpr ⟨first.once, second.once, ?_⟩
    rintro x inside _ inside' rfl
    exact (second.added x inside').2 (first.added x inside).1

theorem cons (x : Node) (first : Lays s s₁ contents) (extended : s₁.Extends s₂)
    (fresh : ¬ s₁.Records x) (known : s₂.Records x) (same : others s₂ = x :: contents s₂)
    (congr : Local others) : Lays s s₂ others where
  extended := first.extended.trans extended
  congr := congr
  added y inside := by
    rw [same, first.kept extended] at inside
    rcases List.mem_cons.mp inside with rfl | inside
    · exact ⟨known, fun old => fresh (first.extended y old).1⟩
    · have added := first.added y inside
      exact ⟨(extended y added.1).1, added.2⟩
  once := by
    rw [same, first.kept extended]
    exact List.nodup_cons.mpr ⟨fun inside => fresh (first.added x inside).1, first.once⟩

end Lays

theorem struct_push (s : Schema) (t : Struct) (u : StructId) :
    ({ s with structs := s.structs.push t } : Schema).struct u =
      if u = s.structs.size then t else s.struct u := by
  simp only [struct, Array.getElem?_push]
  split <;> rfl

theorem enum_push (s : Schema) (e : Enum) (i : EnumId) :
    ({ s with enums := s.enums.push e } : Schema).enum i =
      if i = s.enums.size then e else s.enum i := by
  simp only [enum, Array.getElem?_push]
  split <;> rfl

theorem field_push (s : Schema) (f : Field) (id : FieldId) :
    ({ s with fields := s.fields.push f } : Schema).field id =
      if id = s.fields.size then f else s.field id := by
  simp only [field, Array.getElem?_push]
  split <;> rfl

theorem extends_push_struct (s : Schema) (t : Struct) :
    s.Extends { s with structs := s.structs.push t } := by
  intro x known
  cases x with
  | struct u =>
    have below : u < s.structs.size := known
    refine ⟨?_, ?_⟩
    · simp only [Records, Array.size_push]
      exact Nat.lt_succ_of_lt below
    · simp only [Agrees, struct_push, if_neg (Nat.ne_of_lt below)]
  | _ => exact ⟨known, rfl⟩

theorem extends_push_enum (s : Schema) (e : Enum) :
    s.Extends { s with enums := s.enums.push e } := by
  intro x known
  cases x with
  | enum i =>
    have below : i < s.enums.size := known
    refine ⟨?_, ?_⟩
    · simp only [Records, Array.size_push]
      exact Nat.lt_succ_of_lt below
    · simp only [Agrees, enum_push, if_neg (Nat.ne_of_lt below)]
  | _ => exact ⟨known, rfl⟩

theorem extends_push_field (s : Schema) (f : Field) :
    s.Extends { s with fields := s.fields.push f } := by
  intro x known
  cases x with
  | field id =>
    have below : id < s.fields.size := known
    refine ⟨?_, ?_⟩
    · simp only [Records, Array.size_push]
      exact Nat.lt_succ_of_lt below
    · simp only [Agrees, field_push, if_neg (Nat.ne_of_lt below)]
  | _ => exact ⟨known, rfl⟩

namespace Lays

theorem add_field {f : Field} (inner : Lays s s₁ fun s => s.parts depth f.type.base) :
    Lays s { s₁ with fields := s₁.fields.push f } fun s =>
      s.fieldParts (s.parts depth) s₁.fields.size :=
  inner.cons (.field s₁.fields.size) (extends_push_field s₁ f) (by simp [Records]) (by simp [Records])
    (by simp [fieldParts, field_push]) fun _ _ => field_parts_congr (parts_congr depth)

theorem add_struct {t : Struct}
    (inner : ∀ depth, Lays s s₁ fun s => s.heldParts (s.parts depth) t.members t.fields) :
    Lays s { s₁ with structs := s₁.structs.push t } fun s =>
      s.parts depth (.struct s₁.structs.size) := by
  cases depth with
  | zero =>
    exact ⟨(inner 0).extended.trans (extends_push_struct s₁ t), fun _ _ => parts_congr 0 _, nofun,
      .nil⟩
  | succ depth =>
    exact (inner depth).cons (.struct s₁.structs.size) (extends_push_struct s₁ t)
      (by simp [Records]) (by simp [Records])
      (by simp [parts, struct_push]) fun _ _ => parts_congr _ _

theorem add_enum {e : Enum}
    (inner : ∀ depth, Lays s s₁ fun s => e.values.flatMap (valueParts (s.parts depth))) :
    Lays s { s₁ with enums := s₁.enums.push e } fun s => s.parts depth (.enum s₁.enums.size) := by
  cases depth with
  | zero =>
    exact ⟨(inner 0).extended.trans (extends_push_enum s₁ e), fun _ _ => parts_congr 0 _, nofun,
      .nil⟩
  | succ depth =>
    exact (inner depth).cons (.enum s₁.enums.size) (extends_push_enum s₁ e)
      (by simp [Records]) (by simp [Records])
      (by simp [parts, enum_push]) fun _ _ => parts_congr _ _

end Lays

mutual

theorem load_type_lays (tree : TypeTree) (s : Schema) (depth : Nat) :
    Lays s (loadType tree s).2 fun s' => s'.parts depth (loadType tree s).1.base := by
  cases tree with
  | primitive kind _ => cases depth <;> exact .nothing s
  | reference name location => cases depth <;> exact .nothing s
  | optional base _ => exact load_type_lays base s depth
  | array base _ => exact load_type_lays base s depth
  | struct name members fields location =>
    exact Lays.add_struct fun depth =>
      (load_members_lays members s depth).join (load_fields_lays fields _ depth)
  | enum name values location => exact Lays.add_enum fun depth => load_values_lays values s depth
termination_by structural tree

theorem load_field_lays (field : FieldTree) (s : Schema) (depth : Nat) :
    Lays s (loadField field s).2 fun s' =>
      s'.fieldParts (s'.parts depth) (loadField field s).1 := by
  cases field with
  | mk name type secret notes location => exact Lays.add_field (load_type_lays type s depth)
termination_by structural field

theorem load_fields_lays (fields : List FieldTree) (s : Schema) (depth : Nat) :
    Lays s (loadFields fields s).2 fun s' =>
      (loadFields fields s).1.flatMap (s'.fieldParts (s'.parts depth)) := by
  cases fields with
  | nil => exact .nothing s
  | cons field rest =>
    exact (load_field_lays field s depth).join (load_fields_lays rest _ depth)
termination_by structural fields

theorem load_members_lays (members : List MemberTree) (s : Schema) (depth : Nat) :
    Lays s (loadMembers members s).2 fun s' =>
      (loadMembers members s).1.flatMap (s'.memberParts (s'.parts depth)) := by
  cases members with
  | nil => exact .nothing s
  | cons m rest =>
    cases m with
    | field field => exact (load_field_lays field s depth).join (load_members_lays rest _ depth)
    | spread name nameLocation location => exact load_members_lays rest s depth
termination_by structural members

theorem load_value_lays (value : ValueTree) (s : Schema) (depth : Nat) :
    Lays s (loadValue value s).2 fun s' => valueParts (s'.parts depth) (loadValue value s).1 := by
  cases value with
  | mk text data notes location =>
    cases data with
    | none => exact .nothing s
    | some data =>
      have inner := load_type_lays data s depth
      simp only [loadValue, bind, StateT.bind]
      generalize loadType data s = loaded at inner ⊢
      obtain ⟨⟨suffixes, base⟩, s'⟩ := loaded
      cases base with
      | struct t => exact inner
      | _ => exact inner.forget
termination_by structural value

theorem load_values_lays (values : List ValueTree) (s : Schema) (depth : Nat) :
    Lays s (loadValues values s).2 fun s' =>
      (loadValues values s).1.flatMap (valueParts (s'.parts depth)) := by
  cases values with
  | nil => exact .nothing s
  | cons value rest =>
    exact (load_value_lays value s depth).join (load_values_lays rest _ depth)
termination_by structural values

end

theorem map_lays {α β : Type} {f : α → Loading β} (contents : β → Schema → List Node)
    (step : ∀ a s, Lays s (f a s).2 (contents (f a s).1)) (items : List α) (s : Schema) :
    Lays s (items.mapM f s).2 fun s' => (items.mapM f s).1.flatMap fun b => contents b s' := by
  induction items generalizing s with
  | nil => exact .nothing s
  | cons a rest ih =>
    rw [List.mapM_cons]
    exact (step a s).join (ih _)

theorem load_operation_lays (f : FunctionDeclaration) (s : Schema) (depth : Nat) :
    Lays s (loadOperation f s).2 fun s' =>
      s'.operationParts (s'.parts depth) (loadOperation f s).1 := by
  have members := (load_members_lays f.members s depth).join (Lays.nothing _)
  exact members.join (load_type_lays f.returns _ depth)

section Records

variable {s' : Schema} (agrees : ∀ x, s.Agrees s' x)

include agrees

theorem parts_eq_of_agrees (depth : Nat) : s'.parts depth = s.parts depth := by
  funext base
  exact parts_congr depth base fun x _ => agrees x

theorem operation_parts_eq_of_agrees (descend : TypeBase → List Node) :
    s'.operationParts descend = s.operationParts descend := by
  have field : s'.fieldParts descend = s.fieldParts descend := by
    funext id
    have same : s'.field id = s.field id := agrees (.field id)
    rw [fieldParts, fieldParts, same]
  have member : s'.memberParts descend = s.memberParts descend := by
    funext m
    cases m with
    | field id => exact congrFun field id
    | spread name nameLocation location => rfl
  funext o
  rw [operationParts, operationParts, heldParts, heldParts, field, member]

end Records

/-- What is nested in the declared types is the same whoever declares them first. -/
theorem treelike_of_lays {s' : Schema} (agrees : ∀ x, s.Agrees s' x)
    (records : ∀ x, s.Records x → s'.Records x)
    (lays : ∀ depth, Lays {} s fun s =>
      s'.definitions.flatMap (fun d => s.parts depth d.type.base)
        ++ (s'.errors.flatMap (fun e => s.parts depth e.data.base)
          ++ s'.operations.flatMap (s.operationParts (s.parts depth)))) :
    s'.Treelike := by
  have reordered : ∀ depth, (s'.declaredParts depth).Perm
      (s'.definitions.flatMap (fun d => s.parts depth d.type.base)
        ++ (s'.errors.flatMap (fun e => s.parts depth e.data.base)
          ++ s'.operations.flatMap (s.operationParts (s.parts depth)))) := by
    intro depth
    simp only [declaredParts, parts_eq_of_agrees agrees, operation_parts_eq_of_agrees agrees]
    exact List.perm_append_comm_assoc ..
  refine ⟨fun depth => (reordered depth).nodup_iff.mpr (lays depth).once, fun depth x inside => ?_⟩
  exact records x ((lays depth).added x ((reordered depth).mem_iff.mp inside)).1

theorem treelike_of_tree (tree : SchemaTree) : (ofTree tree).Treelike := by
  refine treelike_of_lays (s := (tree.functions.mapM loadOperation
    (tree.errors.mapM loadError (tree.types.mapM loadDefinition {}).2).2).2) ?_ ?_ ?_
  · intro x
    cases x <;> rfl
  · intro x
    cases x <;> exact id
  · intro depth
    have definitions := map_lays (f := loadDefinition) (fun d s => s.parts depth d.type.base)
      (fun d s => load_type_lays d.type s depth) tree.types {}
    have errors := map_lays (f := loadError) (fun e s => s.parts depth e.data.base)
      (fun e s => load_type_lays e.data s depth) tree.errors (tree.types.mapM loadDefinition {}).2
    exact definitions.join (errors.join (map_lays (fun o s => s.operationParts (s.parts depth) o)
      (fun f s => load_operation_lays f s depth) tree.functions _))

theorem Treelike.add_fatal (treelike : s.Treelike) : s.addFatal.Treelike := by
  unfold addFatal
  split
  · exact treelike
  · have agrees : ∀ x, s.Agrees
        { s with errors := s.errors ++ [⟨"Fatal", .primitive .void, [], {}⟩] } x := by
      intro x
      cases x <;> rfl
    have none : ∀ depth, s.parts depth (.primitive .void) = [] := by
      intro depth
      cases depth <;> rfl
    have same : ∀ depth, declaredParts
        { s with errors := s.errors ++ [⟨"Fatal", .primitive .void, [], {}⟩] } depth
          = s.declaredParts depth := by
      intro depth
      simp only [declaredParts, parts_eq_of_agrees agrees, operation_parts_eq_of_agrees agrees]
      simp [TypeUse.primitive, TypeUse.ofBase, none]
    refine ⟨fun depth => same depth ▸ treelike.once depth, fun depth x inside => ?_⟩
    have recorded := treelike.recorded depth x (same depth ▸ inside)
    cases x <;> exact recorded

end ApiSchema.Schema
