import ApiSchema.Proofs.Schema.OfTree
import ApiSchema.Proofs.Tree.Bare

/-! Schemas of what the parser returns have no fields but those that spreads will give way to, and
the names of these are words. -/

namespace ApiSchema.Schema

/-- No struct and no operation has been expanded. -/
structure Unexpanded (s : Schema) : Prop where
  structs : ∀ t, (s.struct t).fields = []
  operations : ∀ o ∈ s.operations, o.args = []

structure HoldsBare (s : Schema) : Prop where
  none : ∀ t, (s.struct t).fields = []
  names : ∀ id, Lexer.IsName (s.field id).name
  present : ∀ id, id < s.fields.size → (s.field id).name ≠ ""

def LoadsBare (s s' : Schema) : Prop := s.HoldsBare → s'.HoldsBare

namespace LoadsBare

variable {s s₁ s₂ : Schema}

theorem trans (first : LoadsBare s s₁) (second : LoadsBare s₁ s₂) : LoadsBare s s₂ :=
  fun bare => second (first bare)

theorem add_struct (inner : LoadsBare s s₁) {t : Struct} (none : t.fields = []) :
    LoadsBare s { s₁ with structs := s₁.structs.push t } := by
  refine fun bare => ⟨fun u => ?_, (inner bare).names, (inner bare).present⟩
  rw [struct_push]
  split
  · exact none
  · exact (inner bare).none u

theorem add_enum (inner : LoadsBare s s₁) (e : Enum) :
    LoadsBare s { s₁ with enums := s₁.enums.push e } :=
  fun bare => ⟨(inner bare).none, (inner bare).names, (inner bare).present⟩

theorem add_field (inner : LoadsBare s s₁) {f : Field} (name : Lexer.IsWord f.name) :
    LoadsBare s { s₁ with fields := s₁.fields.push f } := by
  refine fun bare => ⟨(inner bare).none, fun id => ?_, fun id inside => ?_⟩
  · rw [field_push]
    split
    · exact name.spelt
    · exact (inner bare).names id
  · rw [Array.size_push] at inside
    rw [field_push]
    split
    · exact name.present
    · next other =>
      exact (inner bare).present id (Nat.lt_of_le_of_ne (Nat.le_of_lt_succ inside) other)

end LoadsBare

mutual

theorem load_type_bare (tree : TypeTree) (s : Schema) (bare : tree.IsBare) :
    LoadsBare s (loadType tree s).2 := by
  cases tree with
  | primitive kind _ => exact id
  | reference name location => exact id
  | optional base _ => exact load_type_bare base s bare
  | array base _ => exact load_type_bare base s bare
  | struct name members fields location =>
    obtain ⟨written, rfl⟩ := bare
    exact (load_members_bare members s written).add_struct rfl
  | enum name values location => exact (load_values_bare values s bare).add_enum _
termination_by structural tree

theorem load_field_bare (field : FieldTree) (s : Schema) (bare : field.IsBare) :
    LoadsBare s (loadField field s).2 := by
  cases field with
  | mk name type secret notes location => exact (load_type_bare type s bare.2).add_field bare.1
termination_by structural field

theorem load_members_bare (members : List MemberTree) (s : Schema)
    (bare : MemberTree.AreBare members) : LoadsBare s (loadMembers members s).2 := by
  cases members with
  | nil => exact id
  | cons m rest =>
    cases m with
    | field field => exact (load_field_bare field s bare.1).trans (load_members_bare rest _ bare.2)
    | spread name nameLocation location => exact load_members_bare rest s bare.2
termination_by structural members

theorem load_value_bare (value : ValueTree) (s : Schema) (bare : value.IsBare) :
    LoadsBare s (loadValue value s).2 := by
  cases value with
  | mk text data notes location =>
    cases data with
    | none => exact id
    | some data =>
      have inner := load_type_bare data s bare
      simp only [loadValue, bind, StateT.bind]
      generalize loadType data s = loaded at inner ⊢
      obtain ⟨⟨suffixes, base⟩, s'⟩ := loaded
      cases base <;> exact inner
termination_by structural value

theorem load_values_bare (values : List ValueTree) (s : Schema) (bare : ValueTree.AreBare values) :
    LoadsBare s (loadValues values s).2 := by
  cases values with
  | nil => exact id
  | cons value rest =>
    exact (load_value_bare value s bare.1).trans (load_values_bare rest _ bare.2)
termination_by structural values

end

theorem map_all {α β : Type} {f : α → Loading β} (holds : β → Prop) {items : List α}
    (step : ∀ a ∈ items, ∀ s, holds (f a s).1) (s : Schema) :
    ∀ b ∈ (items.mapM f s).1, holds b := by
  induction items generalizing s with
  | nil => intro b member; cases member
  | cons a rest ih =>
    rw [List.mapM_cons]
    intro b member
    rcases List.mem_cons.mp member with rfl | later
    · exact step a (List.mem_cons_self ..) s
    · exact ih (fun a member => step a (List.mem_cons_of_mem _ member)) _ b later

theorem load_operation_bare (f : FunctionDeclaration) (s : Schema)
    (bare : MemberTree.AreBare f.members ∧ f.returns.IsBare) :
    LoadsBare s (loadOperation f s).2 :=
  (load_members_bare f.members s bare.1).trans (load_type_bare f.returns _ bare.2)

theorem holds_bare_of_tree {tree : SchemaTree} (bare : tree.IsBare) : (ofTree tree).HoldsBare := by
  have empty : HoldsBare {} := by
    refine ⟨fun t => ?_, fun id => ?_, fun id inside => absurd inside (Nat.not_lt_zero id)⟩
    · rw [struct_of_size_le (Nat.zero_le t)]
      rfl
    · rw [field_of_size_le (Nat.zero_le id)]
      exact nofun
  have types := mapM_keeps (f := loadDefinition)
    (fun d member s => load_type_bare d.type s (bare.types d member).2) empty
  have errors := mapM_keeps (f := loadError)
    (fun e member s => load_type_bare e.data s (bare.errors e member).2) types
  obtain ⟨none, names, present⟩ := mapM_keeps (f := loadOperation)
    (fun f member s => load_operation_bare f s (bare.functions f member).2) errors
  exact ⟨none, names, present⟩

theorem unexpanded_of_tree {tree : SchemaTree} (bare : tree.IsBare) : (ofTree tree).Unexpanded :=
  ⟨(holds_bare_of_tree bare).none, map_all (fun o : Operation => o.args = []) (fun _ _ _ => rfl) _⟩

theorem Unexpanded.add_fatal {s : Schema} (unexpanded : s.Unexpanded) :
    s.addFatal.Unexpanded := by
  unfold addFatal
  split
  · exact unexpanded
  · exact ⟨unexpanded.structs, unexpanded.operations⟩

end ApiSchema.Schema
