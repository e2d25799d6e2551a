import ApiSchema.Proofs.Schema.Nesting

/-! The structs, enums and fields that a type is made of. What a type is depends on nothing else. -/

namespace ApiSchema

inductive Node where
  | struct (id : StructId)
  | enum (id : EnumId)
  | field (id : FieldId)
  deriving DecidableEq

def TypeBase.node? : TypeBase → Option Node
  | .struct t => some (.struct t)
  | .enum e => some (.enum e)
  | _ => none

theorem TypeBase.node_of_nested {base : TypeBase} (nested : base.IsNested) :
    ∃ x, base.node? = some x := by
  cases base with
  | struct t => exact ⟨_, rfl⟩
  | enum e => exact ⟨_, rfl⟩
  | _ => cases nested

namespace Schema

def fieldParts (s : Schema) (descend : TypeBase → List Node) (id : FieldId) : List Node :=
  .field id :: descend (s.field id).type.base

def memberParts (s : Schema) (descend : TypeBase → List Node) : Member → List Node
  | .field id => fieldParts s descend id
  | .spread .. => []

def heldParts (s : Schema) (descend : TypeBase → List Node) (members : List Member)
    (ids : List FieldId) : List Node :=
  members.flatMap (s.memberParts descend) ++ ids.flatMap (s.fieldParts descend)

def valueParts (descend : TypeBase → List Node) (v : EnumValue) : List Node :=
  match v.data with
  | none => []
  | some t => descend (.struct t)

/-- What is nested in a base, with itself first, down to some depth. -/
def parts (s : Schema) : (depth : Nat) → TypeBase → List Node
  | 0, _ => []
  | _ + 1, .primitive _ | _ + 1, .reference .. => []
  | depth + 1, .struct t =>
    .struct t :: s.heldParts (parts s depth) (s.struct t).members (s.struct t).fields
  | depth + 1, .enum e => .enum e :: (s.enum e).values.flatMap (valueParts (parts s depth))

/-- Both schemas have the same record of a node. -/
def Agrees (s s' : Schema) : Node → Prop
  | .struct t => s'.struct t = s.struct t
  | .enum e => s'.enum e = s.enum e
  | .field id => s'.field id = s.field id

def Records (s : Schema) : Node → Prop
  | .struct t => t < s.structs.size
  | .enum e => e < s.enums.size
  | .field id => id < s.fields.size

/-- The nodes whose records say what is nested directly in a base. -/
inductive Uses (s : Schema) : TypeBase → Node → Prop where
  | struct (t : StructId) : Uses s (.struct t) (.struct t)
  | enum (e : EnumId) : Uses s (.enum e) (.enum e)
  | field {t id} (held : s.Holds t id) : Uses s (.struct t) (.field id)

variable {s s' : Schema}

theorem uses_of_node {base : TypeBase} {x : Node} (own : base.node? = some x) : s.Uses base x := by
  cases base with
  | struct t => cases own; exact .struct t
  | enum e => cases own; exact .enum e
  | _ => cases own

theorem Agrees.holds {t : StructId} {id : FieldId} (agrees : s.Agrees s' (.struct t)) :
    s'.Holds t id ↔ s.Holds t id := by
  simp only [Agrees] at agrees
  rw [Holds, Holds, agrees]

theorem Agrees.base_name {base : TypeBase} (agrees : ∀ x, base.node? = some x → s.Agrees s' x) :
    s'.baseName base = s.baseName base := by
  cases base with
  | struct t =>
    have : s'.struct t = s.struct t := agrees _ rfl
    rw [baseName, baseName, this]
  | enum e =>
    have : s'.enum e = s.enum e := agrees _ rfl
    rw [baseName, baseName, this]
  | _ => rfl

theorem Agrees.uses {base : TypeBase} {x : Node} (agrees : ∀ x, base.node? = some x → s.Agrees s' x)
    (uses : s'.Uses base x) : s.Uses base x := by
  cases uses with
  | struct t => exact .struct t
  | enum e => exact .enum e
  | field held => exact .field ((agrees _ rfl).holds.mp held)

section Congruence

variable {descend descend' : TypeBase → List Node}
  (same : ∀ base, (∀ x ∈ descend base, s.Agrees s' x) → descend' base = descend base)

include same

theorem field_parts_congr {id : FieldId}
    (agrees : ∀ x ∈ s.fieldParts descend id, s.Agrees s' x) :
    s'.fieldParts descend' id = s.fieldParts descend id := by
  have field : s'.field id = s.field id := agrees (.field id) (by simp [fieldParts])
  simp only [fieldParts, field, List.cons.injEq, true_and]
  exact same _ fun x member => agrees x (List.mem_cons_of_mem _ member)

theorem member_parts_congr {m : Member}
    (agrees : ∀ x ∈ s.memberParts descend m, s.Agrees s' x) :
    s'.memberParts descend' m = s.memberParts descend m := by
  cases m with
  | field id => exact field_parts_congr same agrees
  | spread name nameLocation location => rfl

theorem held_parts_congr {members : List Member} {ids : List FieldId}
    (agrees : ∀ x ∈ s.heldParts descend members ids, s.Agrees s' x) :
    s'.heldParts descend' members ids = s.heldParts descend members ids := by
  simp only [heldParts, List.mem_append, List.mem_flatMap] at agrees
  simp only [heldParts]
  congr 1
  · exact List.flatMap_congr fun m member =>
      member_parts_congr same fun x here => agrees x (.inl ⟨m, member, here⟩)
  · exact List.flatMap_congr fun id member =>
      field_parts_congr same fun x here => agrees x (.inr ⟨id, member, here⟩)

theorem value_parts_congr {v : EnumValue}
    (agrees : ∀ x ∈ valueParts descend v, s.Agrees s' x) :
    valueParts descend' v = valueParts descend v := by
  unfold valueParts at *
  cases data : v.data with
  | none => rfl
  | some t =>
    rw [data] at agrees
    exact same _ agrees

end Congruence

theorem parts_congr (depth : Nat) :
    ∀ base, (∀ x ∈ s.parts depth base, s.Agrees s' x) →
      s'.parts depth base = s.parts depth base := by
  induction depth with
  | zero => intro base _; rfl
  | succ depth ih =>
    intro base agrees
    cases base with
    | primitive kind => rfl
    | reference name location => rfl
    | struct t =>
      have same : s'.struct t = s.struct t := agrees (.struct t) (List.mem_cons_self ..)
      simp only [parts, same, List.cons.injEq, true_and]
      exact held_parts_congr ih fun x here => agrees x (List.mem_cons_of_mem _ here)
    | enum e =>
      simp only [parts, List.mem_cons, List.mem_flatMap] at agrees
      have same : s'.enum e = s.enum e := agrees (.enum e) (.inl rfl)
      simp only [parts, same, List.cons.injEq, true_and]
      exact List.flatMap_congr fun v member =>
        value_parts_congr ih fun x here => agrees x (.inr ⟨v, member, here⟩)

theorem mem_held_parts {descend : TypeBase → List Node} {members : List Member}
    {ids : List FieldId} {id : FieldId} (held : .field id ∈ members ∨ id ∈ ids) :
    .field id ∈ s.heldParts descend members ids := by
  simp only [heldParts, List.mem_append, List.mem_flatMap]
  rcases held with member | member
  · exact .inl ⟨_, member, by simp [memberParts, fieldParts]⟩
  · exact .inr ⟨_, member, by simp [fieldParts]⟩

theorem mem_parts_of_uses {depth : Nat} {base : TypeBase} {x : Node} (uses : s.Uses base x) :
    x ∈ s.parts (depth + 1) base := by
  cases uses with
  | struct t => simp [parts]
  | enum e => simp [parts]
  | field held => exact List.mem_cons_of_mem _ (mem_held_parts held)

def operationParts (s : Schema) (descend : TypeBase → List Node) (o : Operation) : List Node :=
  s.heldParts descend o.members o.args ++ descend o.returns.base

/-- What is nested in the types that the declarations are written with. -/
def declaredParts (s : Schema) (depth : Nat) : List Node :=
  s.errors.flatMap (fun e => s.parts depth e.data.base)
    ++ (s.definitions.flatMap (fun d => s.parts depth d.type.base)
      ++ s.operations.flatMap (s.operationParts (s.parts depth)))

/-- No type is part of two declarations, or of two types. -/
structure Treelike (s : Schema) : Prop where
  once : ∀ depth, (s.declaredParts depth).Nodup
  recorded : ∀ depth, ∀ x ∈ s.declaredParts depth, s.Records x

theorem operation_parts_congr {depth : Nat} {o : Operation}
    (agrees : ∀ x ∈ s.operationParts (s.parts depth) o, s.Agrees s' x) :
    s'.operationParts (s'.parts depth) o = s.operationParts (s.parts depth) o := by
  simp only [operationParts]
  rw [held_parts_congr (parts_congr depth) fun x here => agrees x (List.mem_append_left _ here),
    parts_congr depth _ fun x here => agrees x (List.mem_append_right _ here)]

theorem sublist_flatMap {α : Type} {f : α → List Node} {items : List α} {a : α}
    (member : a ∈ items) : List.Sublist (f a) (items.flatMap f) := by
  rw [List.flatMap_def]
  exact List.sublist_flatten_of_mem (List.mem_map_of_mem member)

theorem field_parts_sublist {descend : TypeBase → List Node} {members : List Member}
    {ids : List FieldId} {id : FieldId} (held : .field id ∈ members ∨ id ∈ ids) :
    List.Sublist (s.fieldParts descend id) (s.heldParts descend members ids) := by
  rcases held with member | member
  · have here : List.Sublist (s.memberParts descend (.field id)) _ := sublist_flatMap member
    exact here.trans (List.sublist_append_left ..)
  · exact (sublist_flatMap member).trans (List.sublist_append_right ..)

theorem parts_of_nests {base part : TypeBase} (nests : s.Nests base part) (depth : Nat) :
    ∃ x rest, base.node? = some x ∧ s.parts (depth + 1) base = x :: rest ∧
      List.Sublist (s.parts depth part) rest := by
  cases nests with
  | field held =>
    exact ⟨_, _, rfl, rfl, (List.sublist_cons_self ..).trans (field_parts_sublist held)⟩
  | @value e v t member data =>
    refine ⟨_, _, rfl, rfl, ?_⟩
    have here : List.Sublist (valueParts (s.parts depth) v) _ := sublist_flatMap member
    rwa [valueParts, data] at here

theorem parts_of_contains {base part : TypeBase} (contains : s.Contains base part) :
    ∀ depth, ∃ depth', List.Sublist (s.parts depth part) (s.parts depth' base) := by
  intro depth
  induction contains using Relation.ReflTransGen.head_induction_on with
  | refl => exact ⟨depth, .refl _⟩
  | head nests _ ih =>
    obtain ⟨depth', inner⟩ := ih
    obtain ⟨x, rest, _, parts, outer⟩ := parts_of_nests nests depth'
    exact ⟨depth' + 1, parts ▸ (inner.trans outer).cons x⟩

theorem not_nodup_of_cycle {base : TypeBase} (cycle : s.ProperlyContains base base) :
    ∃ depth, ¬ (s.parts depth base).Nodup := by
  obtain ⟨part, nests, back⟩ := Relation.TransGen.head'_iff.mp cycle
  obtain ⟨x, own⟩ := TypeBase.node_of_nested nests.nested
  obtain ⟨depth, inner⟩ := parts_of_contains back 1
  obtain ⟨y, rest, own', parts, outer⟩ := parts_of_nests nests depth
  rw [own] at own'
  cases own'
  refine ⟨depth + 1, fun once => ?_⟩
  rw [parts] at once
  have again := (inner.trans outer).subset (mem_parts_of_uses (uses_of_node own))
  exact (List.nodup_cons.mp once).1 again

theorem parts_of_declares {base : TypeBase} (declared : s.Declares base) (depth : Nat) :
    List.Sublist (s.parts depth base) (s.declaredParts depth) := by
  have operation : ∀ {o}, o ∈ s.operations →
      List.Sublist (s.operationParts (s.parts depth) o) (s.declaredParts depth) :=
    fun member => ((sublist_flatMap member).trans (List.sublist_append_right ..)).trans
      (List.sublist_append_right ..)
  cases declared with
  | definition member =>
    have here : List.Sublist _
        (s.definitions.flatMap fun (d : Definition) => s.parts depth d.type.base) :=
      sublist_flatMap member
    exact (here.trans (List.sublist_append_left ..)).trans (List.sublist_append_right ..)
  | error member =>
    have here : List.Sublist _
        (s.errors.flatMap fun (e : ErrorKind) => s.parts depth e.data.base) :=
      sublist_flatMap member
    exact here.trans (List.sublist_append_left ..)
  | argument member held =>
    exact (((List.sublist_cons_self ..).trans (field_parts_sublist held)).trans
      (List.sublist_append_left ..)).trans (operation member)
  | spread => cases depth <;> exact List.nil_sublist _
  | returns member => exact (List.sublist_append_right ..).trans (operation member)

theorem Treelike.grounded (treelike : s.Treelike) : s.Grounded := by
  intro base declared part contains cycle
  obtain ⟨depth, repeated⟩ := not_nodup_of_cycle cycle
  obtain ⟨depth', inner⟩ := parts_of_contains contains depth
  exact repeated ((inner.trans (parts_of_declares declared depth')).nodup (treelike.once depth'))

end Schema

end ApiSchema
