import ApiSchema.Proofs.Running
import ApiSchema.Proofs.Schema.OfTree
import ApiSchema.Schema.OfDocument

/-! Schemas of documents. Each entry of the table of types has become a definition, and a struct or
an enum of it has the number of its place among all structs or enums. -/

namespace ApiSchema

def Document.tableOf (structs : Table (Table String)) (enums : Table (List (String × Option String)))
    (texts : Table String) : Table TypeDescription :=
  structs.map (fun (name, fields) => (name, .struct fields))
    ++ enums.map (fun (name, members) => (name, .enum members))
    ++ texts.map fun (name, text) => (name, .text text)

namespace Schema

def structPlace (name : String) : Option String := if name.isEmpty then none else some s!"type.{name}"

def textField (d : Document) (place : Option String) (field : String × String) : Field :=
  ⟨field.1, TypeText.read field.2, false,
    match place with
    | some place => notesAt d s!"{place}.{field.1}"
    | none => [], {}⟩

def describedValue (d : Document) (member : String × Option String) : EnumValue :=
  ⟨member.1, member.2.bind (structNumbers d.types).get?, [], {}⟩

def describedEntry (d : Document) (entry : String × Signature) : Loading Operation :=
  describedOperation d entry.1 entry.2

def structDefinition (entry : (String × Table String) × StructId) : Definition :=
  ⟨entry.1.1, .ofBase (.struct entry.2), [], {}⟩

def enumDefinition (entry : (String × List (String × Option String)) × EnumId) : Definition :=
  ⟨entry.1.1, .ofBase (.enum entry.2), [], {}⟩

def textDefinition (entry : String × String) : Definition :=
  ⟨entry.1, TypeText.read entry.2, [], {}⟩

def FieldsAt (s : Schema) (ids : List FieldId) (fields : List Field) : Prop :=
  (∀ id ∈ ids, s.Records (.field id)) ∧ ids.map s.field = fields

def StructAt (d : Document) (title : String) (s : Schema) (t : StructId)
    (entry : String × Table String) : Prop :=
  s.Records (.struct t) ∧ ∃ ids, s.struct t = ⟨title, [], ids, {}⟩ ∧
    s.FieldsAt ids (entry.2.map (textField d (structPlace entry.1)))

def EnumAt (d : Document) (title : String) (s : Schema) (e : EnumId)
    (entry : String × List (String × Option String)) : Prop :=
  s.Records (.enum e) ∧ s.enum e = ⟨title, entry.2.map (describedValue d), {}⟩

def OperationAt (d : Document) (s : Schema) (entry : String × Signature) (o : Operation) : Prop :=
  ∃ ids, o = ⟨entry.1, [], ids, TypeText.read entry.2.returns, notesAt d s!"fn.{entry.1}", false, {}⟩ ∧
    s.FieldsAt ids (entry.2.args.map (textField d (some s!"fn.{entry.1}")))

variable {d : Document} {s s' : Schema}

theorem FieldsAt.later {ids : List FieldId} {fields : List Field} (fieldsAt : s.FieldsAt ids fields)
    (extended : s.Extends s') : s'.FieldsAt ids fields := by
  obtain ⟨known, rfl⟩ := fieldsAt
  refine ⟨fun id member => (extended _ (known id member)).1, List.map_congr_left fun id member => ?_⟩
  exact (extended _ (known id member)).2

theorem StructAt.later {title : String} {t : StructId} {entry : String × Table String}
    (structAt : StructAt d title s t entry) (extended : s.Extends s') :
    StructAt d title s' t entry := by
  obtain ⟨known, ids, same, fields⟩ := structAt
  have kept : s'.struct t = s.struct t := (extended _ known).2
  exact ⟨(extended _ known).1, ids, kept.trans same, fields.later extended⟩

theorem EnumAt.later {title : String} {e : EnumId} {entry : String × List (String × Option String)}
    (enumAt : EnumAt d title s e entry) (extended : s.Extends s') : EnumAt d title s' e entry := by
  obtain ⟨known, same⟩ := enumAt
  have kept : s'.enum e = s.enum e := (extended _ known).2
  exact ⟨(extended _ known).1, kept.trans same⟩

theorem OperationAt.later {entry : String × Signature} {o : Operation}
    (operationAt : OperationAt d s entry o) (extended : s.Extends s') : OperationAt d s' entry o := by
  obtain ⟨ids, same, fields⟩ := operationAt
  exact ⟨ids, same, fields.later extended⟩

section Loading

theorem load_fields (place : Option String) (fields : List (String × String)) (s : Schema) :
    let r := fields.mapM (addTextField d place) s
    s.Extends r.2 ∧ r.2.structs = s.structs ∧ r.2.enums = s.enums ∧
      r.2.FieldsAt r.1 (fields.map (textField d place)) := by
  induction fields generalizing s with
  | nil => exact ⟨.refl s, rfl, rfl, nofun, rfl⟩
  | cons entry rest ih =>
    rw [List.mapM_cons]
    have added := extends_push_field s (textField d place entry)
    obtain ⟨extended, structs, enums, known, same⟩ :=
      ih { s with fields := s.fields.push (textField d place entry) }
    have own : ({ s with fields := s.fields.push (textField d place entry) } : Schema).Records
        (.field s.fields.size) := by simp [Records]
    refine ⟨added.trans extended, structs, enums, ?_, ?_⟩
    · exact List.forall_mem_cons.mpr ⟨(extended _ own).1, known⟩
    · refine List.cons_eq_cons.mpr ⟨?_, same⟩
      have first := (extended _ own).2
      refine Eq.trans first ?_
      rw [field_push, if_pos rfl]

theorem map_append {α β : Type} (f : α → Loading β) (items others : List α) (s : Schema) :
    (items ++ others).mapM f s =
      (let r := items.mapM f s; let r' := others.mapM f r.2; (r.1 ++ r'.1, r'.2)) := by
  rw [List.mapM_append]
  rfl

theorem load_numbered {α β : Type} {f : α → Loading β} {result : α × Nat → β}
    (count other : Schema → Nat) (held : Schema → Nat → α → Prop)
    (stable : ∀ s s' n a, held s n a → s.Extends s' → held s' n a)
    (step : ∀ a s, ∃ s', f a s = (result (a, count s), s') ∧ s.Extends s' ∧
      count s' = count s + 1 ∧ other s' = other s ∧ held s' (count s) a)
    (items : List α) (s : Schema) :
    ∃ s', items.mapM f s = ((items.zipIdx (count s)).map result, s') ∧ s.Extends s' ∧
      count s' = count s + items.length ∧ other s' = other s ∧
      ∀ entry ∈ items.zipIdx (count s), held s' entry.2 entry.1 := by
  induction items generalizing s with
  | nil => exact ⟨s, rfl, .refl s, rfl, rfl, nofun⟩
  | cons a rest ih =>
    obtain ⟨s₁, first, grown, counted, kept, holds⟩ := step a s
    obtain ⟨s₂, others, extended, size, kept', each⟩ := ih s₁
    rw [counted] at others size each
    have run : (a :: rest).mapM f s =
        (let r := f a s; let rs := rest.mapM f r.2; (r.1 :: rs.1, rs.2)) := by
      rw [List.mapM_cons]
      rfl
    refine ⟨s₂, ?_, grown.trans extended, ?_, kept'.trans kept, ?_⟩
    · rw [run, first]
      dsimp only
      rw [others]
      rfl
    · rw [size, List.length_cons]
      omega
    · rw [List.zipIdx_cons]
      exact List.forall_mem_cons.mpr ⟨stable _ _ _ _ holds extended, each⟩

theorem load_struct (entry : String × Table String) (s : Schema) :
    ∃ s', describedDefinition d (entry.1, .struct entry.2) s =
        (structDefinition (entry, s.structs.size), s') ∧ s.Extends s' ∧
      s'.structs.size = s.structs.size + 1 ∧ s'.enums.size = s.enums.size ∧
      StructAt d "" s' s.structs.size entry := by
  obtain ⟨name, fields⟩ := entry
  obtain ⟨grown, structs, enums, held⟩ := load_fields (d := d) (structPlace name) fields s
  generalize ran : fields.mapM (addTextField d (structPlace name)) s = r at grown structs enums held
  obtain ⟨ids, s₁⟩ := r
  have size : s₁.structs.size = s.structs.size := congrArg Array.size structs
  have pushed := extends_push_struct s₁ ⟨"", [], ids, {}⟩
  refine ⟨{ s₁ with structs := s₁.structs.push ⟨"", [], ids, {}⟩ }, ?_, grown.trans pushed,
    (Array.size_push ..).trans (congrArg (· + 1) size), congrArg Array.size enums,
    ?_, ids, ?_, held.later pushed⟩
  · have run : describedDefinition d (name, .struct fields) s =
        (let r := fields.mapM (addTextField d (structPlace name)) s;
          (structDefinition ((name, fields), r.2.structs.size),
            { r.2 with structs := r.2.structs.push ⟨"", [], r.1, {}⟩ })) := rfl
    rw [run, ran, ← size]
  · exact Nat.lt_of_lt_of_eq (size ▸ Nat.lt_succ_self _) (Array.size_push ..).symm
  · refine (struct_push ..).trans ?_
    rw [if_pos size.symm]

theorem load_enum (entry : String × List (String × Option String)) (s : Schema) :
    ∃ s', describedDefinition d (entry.1, .enum entry.2) s =
        (enumDefinition (entry, s.enums.size), s') ∧ s.Extends s' ∧
      s'.enums.size = s.enums.size + 1 ∧ s'.structs.size = s.structs.size ∧
      EnumAt d "" s' s.enums.size entry := by
  have pushed := extends_push_enum s ⟨"", entry.2.map (describedValue d), {}⟩
  refine ⟨_, rfl, pushed, Array.size_push .., rfl, ?_, ?_⟩
  · exact Nat.lt_of_lt_of_eq (Nat.lt_succ_self _) (Array.size_push ..).symm
  · refine (enum_push ..).trans ?_
    rw [if_pos rfl]
    rfl

theorem load_texts (texts : Table String) (s : Schema) :
    (texts.map fun (name, text) => (name, TypeDescription.text text)).mapM
      (describedDefinition d) s = (texts.map textDefinition, s) := by
  induction texts with
  | nil => rfl
  | cons entry rest ih =>
    rw [List.map_cons, List.mapM_cons]
    have run : ∀ items : List (String × TypeDescription), (do
        let b ← describedDefinition d (entry.1, .text entry.2)
        let bs ← items.mapM (describedDefinition d)
        pure (b :: bs)) s = (let r := items.mapM (describedDefinition d) s;
          (textDefinition entry :: r.1, r.2)) := fun _ => rfl
    rw [run, ih]
    rfl

theorem load_operations (operations : Table Signature) (s : Schema) :
    ∃ loaded s', operations.mapM (describedEntry d) s = (loaded, s') ∧ s.Extends s' ∧ s'.structs.size = s.structs.size ∧
      s'.enums.size = s.enums.size ∧ List.Forall₂ (OperationAt d s') operations loaded := by
  induction operations generalizing s with
  | nil => exact ⟨[], s, rfl, .refl s, rfl, rfl, .nil⟩
  | cons entry rest ih =>
    obtain ⟨name, signature⟩ := entry
    obtain ⟨grown, structs, enums, held⟩ :=
      load_fields (d := d) (some s!"fn.{name}") signature.args s
    obtain ⟨loaded, s₂, others, extended, structs', enums', each⟩ :=
      ih (signature.args.mapM (addTextField d (some s!"fn.{name}")) s).2
    refine ⟨_ :: loaded, s₂, ?_, grown.trans extended, structs'.trans (congrArg Array.size structs),
      enums'.trans (congrArg Array.size enums), .cons ⟨_, rfl, held.later extended⟩ each⟩
    rw [List.mapM_cons]
    have run : ∀ items : Table Signature, (do
        let b ← describedEntry d (name, signature)
        let bs ← items.mapM (describedEntry d)
        pure (b :: bs)) s =
          (let r := signature.args.mapM (addTextField d (some s!"fn.{name}")) s;
            let rs := items.mapM (describedEntry d) r.2;
            (⟨name, [], r.1, TypeText.read signature.returns, notesAt d s!"fn.{name}", false, {}⟩ ::
              rs.1, rs.2)) := fun _ => rfl
    rw [run]
    dsimp only
    rw [others]

end Loading

/-- A schema that says what a document says, with structs and enums under some titles. -/
structure Restates (d : Document) (structs : Table (Table String))
    (enums : Table (List (String × Option String))) (texts : Table String) (title : String → String)
    (s : Schema) : Prop where
  definitions : s.definitions = structs.zipIdx.map structDefinition
    ++ enums.zipIdx.map enumDefinition ++ texts.map textDefinition
  structCount : s.structs.size = structs.length
  enumCount : s.enums.size = enums.length
  struct : ∀ entry ∈ structs.zipIdx, StructAt d (title entry.1.1) s entry.2 entry.1
  enum : ∀ entry ∈ enums.zipIdx, EnumAt d (title entry.1.1) s entry.2 entry.1
  operations : List.Forall₂ (OperationAt d s) d.operations s.operations
  errors : s.errors = d.errors.map (describedError d)

theorem restates_of_document {structs : Table (Table String)}
    {enums : Table (List (String × Option String))} {texts : Table String}
    (same : d.types = Document.tableOf structs enums texts) :
    Restates d structs enums texts (fun _ => "") (ofDocument d) := by
  obtain ⟨s₁, first, _, size₁, enums₁, each₁⟩ :=
    load_numbered (·.structs.size) (·.enums.size) (StructAt d "") (fun _ _ _ _ => StructAt.later)
      load_struct structs {}
  obtain ⟨s₂, second, extended₂, size₂, structs₂, each₂⟩ :=
    load_numbered (·.enums.size) (·.structs.size) (EnumAt d "") (fun _ _ _ _ => EnumAt.later)
      load_enum enums s₁
  have none : s₁.enums.size = 0 := enums₁
  rw [none] at second size₂ each₂
  obtain ⟨loaded, s₃, third, extended₃, structs₃, enums₃, each₃⟩ :=
    load_operations (d := d) d.operations s₂
  have run : ofDocument d = { s₃ with
      definitions := structs.zipIdx.map structDefinition ++ enums.zipIdx.map enumDefinition
        ++ texts.map textDefinition
      operations := loaded
      errors := d.errors.map (describedError d) } := by
    have types : d.types.mapM (describedDefinition d) {} =
        (structs.zipIdx.map structDefinition ++ enums.zipIdx.map enumDefinition
          ++ texts.map textDefinition, s₂) := by
      have firsts : (structs.map fun (name, fields) => (name, TypeDescription.struct fields)).mapM
          (describedDefinition d) {} = (structs.zipIdx.map structDefinition, s₁) := by
        rw [List.mapM_map]
        exact first
      have seconds : (enums.map fun (name, members) => (name, TypeDescription.enum members)).mapM
          (describedDefinition d) s₁ = (enums.zipIdx.map enumDefinition, s₂) := by
        rw [List.mapM_map]
        exact second
      rw [same, Document.tableOf, map_append, map_append]
      dsimp only
      rw [firsts]
      dsimp only
      rw [seconds]
      dsimp only
      rw [load_texts]
    have whole : ofDocument d = (let r := d.types.mapM (describedDefinition d) {};
      let o := d.operations.mapM (describedEntry d) r.2;
      { o.2 with
        definitions := r.1
        operations := o.1
        errors := d.errors.map (describedError d) }) := rfl
    rw [whole, types]
    dsimp only
    rw [third]
  rw [run]
  refine ⟨rfl, ?_, ?_, ?_, ?_, ?_, rfl⟩
  · exact structs₃.trans (structs₂.trans (size₁.trans (Nat.zero_add _)))
  · exact enums₃.trans (size₂.trans (Nat.zero_add _))
  · exact fun entry member => ((each₁ entry member).later extended₂).later extended₃
  · exact fun entry member => (each₂ entry member).later extended₃
  · exact each₃

def PlainFields (s : Schema) : Prop := ∀ id, ¬ (s.field id).type.base.IsNested

theorem Deep.nested {n : Nat} {base : TypeBase} (deep : s.Deep n base) : base.IsNested := by
  cases deep with
  | here nested => exact nested
  | inside nests _ => exact nests.nested

/-- Below a struct there is nothing, and so an enum goes two steps down at most. -/
theorem PlainFields.grounded (plain : s.PlainFields) : s.Grounded := by
  intro base _
  apply acyclic_of_not_deep (n := 2)
  intro deep
  cases deep with
  | inside first deeper =>
    cases first with
    | field held => exact plain _ deeper.nested
    | value member data =>
      cases deeper with
      | inside second deepest =>
        cases second with
        | field held => exact plain _ deepest.nested

theorem PlainFields.push (plain : s.PlainFields) {f : Field} (free : ¬ f.type.base.IsNested) :
    PlainFields { s with fields := s.fields.push f } := by
  intro id
  rw [field_push]
  split
  · exact free
  · exact plain id

theorem not_nested_read (text : String) : ¬ (TypeText.read text).base.IsNested := by
  have plain : ∀ name, ¬ (TypeText.baseOf name).IsNested := by
    intro name
    unfold TypeText.baseOf
    split <;> exact id
  exact plain _

theorem load_fields_plain (place : Option String) (fields : List (String × String)) (s : Schema)
    (plain : s.PlainFields) : (fields.mapM (addTextField d place) s).2.PlainFields :=
  mapM_keeps (fun field _ _ plain => plain.push (not_nested_read field.2)) plain

theorem load_definition_plain (entry : String × TypeDescription) (s : Schema)
    (plain : s.PlainFields) : (describedDefinition d entry s).2.PlainFields := by
  obtain ⟨name, type⟩ := entry
  cases type with
  | text type => exact plain
  | enum members => exact plain
  | struct fields => exact load_fields_plain _ fields s plain

theorem plain_fields_of_document (d : Document) : (ofDocument d).PlainFields := by
  have start : PlainFields {} := by
    intro id
    rw [field_of_size_le (Nat.zero_le id)]
    exact fun nested => nested
  have types : (d.types.mapM (describedDefinition d) {}).2.PlainFields :=
    mapM_keeps (fun entry _ => load_definition_plain entry) start
  exact mapM_keeps (f := describedEntry d) (fun entry _ => load_fields_plain _ entry.2.args) types

theorem grounded_of_document (d : Document) : (ofDocument d).Grounded :=
  (plain_fields_of_document d).grounded

end Schema

end ApiSchema
