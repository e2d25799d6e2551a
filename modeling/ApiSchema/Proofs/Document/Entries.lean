import ApiSchema.Document.OfSchema
import ApiSchema.Proofs.Analysis.Collection
import ApiSchema.Proofs.Table

/-! What the document of an accepted schema says under each name. Structs and enums never take each
other's entries; a definition of another type takes the entry of a struct or an enum that the
analysis has given its name, and a function that of an earlier one. -/

namespace ApiSchema.Schema

def fieldText (s : Schema) (id : FieldId) : String × String :=
  ((s.field id).name, s.typeName (s.field id).type)

def ownSignature (s : Schema) (o : Operation) : Signature :=
  ⟨o.args.map s.fieldText, s.typeName o.returns⟩

def aliases (s : Schema) : List Definition := s.definitions.filter (!·.type.isNested)

def IsAlias (s : Schema) (name : String) : Prop := ∃ d ∈ s.aliases, d.name = name

def structEntry (s : Schema) (t : StructId) : String × TypeDescription :=
  ((s.struct t).name, .struct (s.fieldTexts (s.struct t).fields))

def enumEntry (s : Schema) (e : EnumId) : String × TypeDescription :=
  ((s.enum e).name, .enum (s.enumMembers (s.enum e)))

def collectedEntries (s : Schema) : Table TypeDescription :=
  s.structOrder.map s.structEntry ++ s.enumOrder.map s.enumEntry

variable {s : Schema}

theorem collected_entries_keys (s : Schema) :
    s.collectedEntries.keys = s.collected.map s.baseName := by
  simp [collectedEntries, Table.keys, collected, structEntry, enumEntry, baseName,
    Function.comp_def]

theorem field_texts_eq {ids : List FieldId} (distinct : s.DistinctNames ids) :
    s.fieldTexts ids = ids.map s.fieldText := by
  apply Table.ofEntries_of_nodup
  simpa [DistinctNames, Function.comp_def] using distinct

theorem signature_eq {o : Operation} (distinct : s.DistinctNames o.args) :
    s.signature o = s.ownSignature o := by
  rw [signature, ownSignature, field_texts_eq distinct]

theorem add_entries {α : Type}
    {add : Table TypeDescription → α → Except NameClash (Table TypeDescription)}
    {entry : α → String × TypeDescription}
    (step : ∀ table a, (entry a).1 ∉ Table.keys table → add table a = .ok (table ++ [entry a]))
    {items : List α} : ∀ {table : Table TypeDescription},
      (table.keys ++ items.map fun a => (entry a).1).Nodup →
        items.foldlM add table = .ok (table ++ items.map entry) := by
  induction items with
  | nil => intro table _; simp [pure, Except.pure]
  | cons a rest ih =>
    intro table distinct
    have new : (entry a).1 ∉ table.keys := fun member =>
      (List.nodup_append.mp distinct).2.2 _ member _ (List.mem_cons_self ..) rfl
    rw [List.foldlM_cons, step table a new]
    change rest.foldlM add (table ++ [entry a]) = _
    rw [ih, List.append_assoc]
    · rfl
    · simpa [Table.keys] using distinct

theorem add_struct_entry (table : Table TypeDescription) (t : StructId)
    (new : (s.struct t).name ∉ table.keys) :
    s.addStructEntry table t = .ok (table ++ [s.structEntry t]) := by
  have free : table.has (s.struct t).name = false := by
    rw [← Bool.not_eq_true, Table.has_iff]
    exact new
  simp only [addStructEntry, free, Table.insert_of_not_mem new]
  rfl

theorem add_enum_entry (table : Table TypeDescription) (e : EnumId)
    (new : (s.enum e).name ∉ table.keys) :
    s.addEnumEntry table e = .ok (table ++ [s.enumEntry e]) := by
  have free : table.has (s.enum e).name = false := by
    rw [← Bool.not_eq_true, Table.has_iff]
    exact new
  simp only [addEnumEntry, free, Table.insert_of_not_mem new]
  rfl

theorem type_entries_eq (distinct : (s.collected.map s.baseName).Nodup) :
    s.typeEntries = .ok (s.definitions.foldl s.addDefinitionEntry s.collectedEntries) := by
  rw [← collected_entries_keys, collectedEntries, Table.keys, List.map_append] at distinct
  have structs : s.structOrder.foldlM s.addStructEntry [] =
      .ok ([] ++ s.structOrder.map s.structEntry) :=
    add_entries add_struct_entry
      (by simpa [Table.keys, Function.comp_def] using (List.nodup_append.mp distinct).1)
  have enums : s.enumOrder.foldlM s.addEnumEntry (s.structOrder.map s.structEntry) =
      .ok s.collectedEntries :=
    add_entries add_enum_entry (by simpa [Table.keys, Function.comp_def] using distinct)
  rw [typeEntries, structs]
  change (do
    let types ← s.enumOrder.foldlM s.addEnumEntry (s.structOrder.map s.structEntry)
    return s.definitions.foldl s.addDefinitionEntry types) = _
  rw [enums]
  rfl

theorem distinct_of_add {α : Type}
    {add : Table TypeDescription → α → Except NameClash (Table TypeDescription)}
    {entry : α → String × TypeDescription}
    (step : ∀ table a, (entry a).1 ∉ Table.keys table → add table a = .ok (table ++ [entry a]))
    (taken : ∀ table a, (entry a).1 ∈ Table.keys table → ∃ e, add table a = .error e)
    {items : List α} : ∀ {table result : Table TypeDescription},
      items.foldlM add table = .ok result → table.keys.Nodup →
        (table.keys ++ items.map fun a => (entry a).1).Nodup := by
  induction items with
  | nil =>
    intro table _ _ distinct
    simpa using distinct
  | cons a rest ih =>
    intro table result added distinct
    by_cases member : (entry a).1 ∈ table.keys
    · obtain ⟨e, refused⟩ := taken table a member
      rw [List.foldlM_cons, refused] at added
      cases added
    · rw [List.foldlM_cons, step table a member] at added
      have grown : (Table.keys (table ++ [entry a])).Nodup := by
        rw [Table.keys, List.map_append]
        exact distinct.append (List.nodup_singleton _) (by simpa [Table.keys] using member)
      simpa [Table.keys] using ih added grown

theorem struct_entry_taken (table : Table TypeDescription) (t : StructId)
    (taken : (s.structEntry t).1 ∈ table.keys) : ∃ e, s.addStructEntry table t = .error e :=
  ⟨_, if_pos (Table.has_iff.mpr taken)⟩

theorem enum_entry_taken (table : Table TypeDescription) (e : EnumId)
    (taken : (s.enumEntry e).1 ∈ table.keys) : ∃ clash, s.addEnumEntry table e = .error clash :=
  ⟨_, if_pos (Table.has_iff.mpr taken)⟩

theorem distinct_of_type_entries {types : Table TypeDescription} (written : s.typeEntries = .ok types) :
    (s.collected.map s.baseName).Nodup := by
  rw [typeEntries] at written
  cases structs : s.structOrder.foldlM s.addStructEntry [] with
  | error e => rw [structs] at written; cases written
  | ok table =>
    have distinct := distinct_of_add add_struct_entry struct_entry_taken structs List.nodup_nil
    have added : s.structOrder.foldlM s.addStructEntry [] =
        .ok ([] ++ s.structOrder.map s.structEntry) := add_entries add_struct_entry distinct
    cases structs.symm.trans added
    rw [structs] at written
    cases enums : s.enumOrder.foldlM s.addEnumEntry ([] ++ s.structOrder.map s.structEntry) with
    | error e =>
      simp only [bind, Except.bind, enums] at written
      cases written
    | ok other =>
      have apart := distinct_of_add add_enum_entry enum_entry_taken enums
        (by simpa [Table.keys, Function.comp_def] using distinct)
      rw [← collected_entries_keys, collectedEntries, Table.keys, List.map_append]
      simpa [Table.keys, Function.comp_def] using apart

theorem document_iff : (∃ d, s.document = .ok d) ↔ (s.collected.map s.baseName).Nodup := by
  constructor
  · rintro ⟨d, written⟩
    cases entries : s.typeEntries with
    | error e =>
      rw [document, entries] at written
      cases written
    | ok types => exact distinct_of_type_entries entries
  · intro distinct
    exact ⟨_, by rw [document, type_entries_eq distinct]; rfl⟩

theorem types_of_document {d : Document} (written : s.document = .ok d) :
    d.types = s.definitions.foldl s.addDefinitionEntry s.collectedEntries := by
  rw [document, type_entries_eq (document_iff.mp ⟨d, written⟩)] at written
  cases written
  rfl

theorem add_definitions_eq (table : Table TypeDescription) :
    s.definitions.foldl s.addDefinitionEntry table =
      s.aliases.foldl (fun types a => types.insert a.name (.text (s.typeName a.type))) table := by
  rw [aliases, List.foldl_filter]
  congr 1
  funext types a
  simp only [addDefinitionEntry]
  cases a.type.isNested <;> rfl

theorem get_add_definitions (table : Table TypeDescription) (name : String) :
    (s.definitions.foldl s.addDefinitionEntry table).get? name =
      ((s.aliases.reverse.find? (·.name == name)).map fun d => .text (s.typeName d.type)).or
        (table.get? name) := by
  rw [add_definitions_eq]
  exact Table.get?_foldl_insert (fun d : Definition => d.name)
    (fun d => .text (s.typeName d.type)) s.aliases name table

theorem find_alias_none {name : String} (free : ¬ s.IsAlias name) :
    s.aliases.reverse.find? (·.name == name) = none := by
  rw [List.find?_eq_none]
  intro d member
  rw [List.mem_reverse] at member
  simpa using fun same => free ⟨d, member, same⟩

theorem find_alias_some {name : String} (taken : s.IsAlias name) :
    ∃ d ∈ s.aliases, d.name = name ∧ s.aliases.reverse.find? (·.name == name) = some d := by
  obtain ⟨d, member, rfl⟩ := taken
  cases found : s.aliases.reverse.find? (·.name == d.name) with
  | none =>
    have other := List.find?_eq_none.mp found d (List.mem_reverse.mpr member)
    simp at other
  | some last =>
    refine ⟨last, List.mem_reverse.mp (List.mem_of_find?_eq_some found), ?_, rfl⟩
    simpa using List.find?_some found

theorem get_collected_iff (distinct : (s.collected.map s.baseName).Nodup) {name : String}
    {entry : TypeDescription} (member : (name, entry) ∈ s.collectedEntries)
    (proper : ∀ text, entry ≠ .text text) :
    (s.definitions.foldl s.addDefinitionEntry s.collectedEntries).get? name = some entry ↔
      ¬ s.IsAlias name := by
  rw [← collected_entries_keys] at distinct
  rw [get_add_definitions, Table.get?_of_mem distinct member]
  constructor
  · intro found taken
    obtain ⟨d, _, _, last⟩ := find_alias_some taken
    rw [last] at found
    exact proper _ (Option.some.inj found).symm
  · intro free
    rw [find_alias_none free]
    rfl

/-- In the document of an accepted source, a struct or an enum has its own entry exactly if no
definition of another type has the name that it was given; each such definition has its own; and
functions of one name have the entry of the last of them. -/
theorem document_entries {files : FileTree} {file source : String} {tree : SchemaTree}
    {final : Schema} (parsed : SchemaTree.parse files file source = .ok tree)
    (accepted : (ofTree tree).analyse = .ok final) :
    ∃ d, final.document = .ok d ∧
      (∀ t ∈ final.structOrder,
        d.types.get? (final.struct t).name =
            some (.struct ((final.struct t).fields.map final.fieldText)) ↔
          ¬ final.IsAlias (final.struct t).name) ∧
      (∀ e ∈ final.enumOrder,
        d.types.get? (final.enum e).name = some (.enum (final.enumMembers (final.enum e))) ↔
          ¬ final.IsAlias (final.enum e).name) ∧
      (∀ a ∈ final.aliases, d.types.get? a.name = some (.text (final.typeName a.type))) ∧
      ∀ o ∈ final.operations, d.operations.get? o.name =
        (final.operations.reverse.find? (·.name == o.name)).map final.ownSignature := by
  obtain ⟨named, expanded, stages⟩ := accepted_of_analyse accepted
  have treelike := treelike_of_tree tree
  have names := stages.collected_names treelike
  have distinct := stages.distinct_fields treelike (unexpanded_of_tree (SchemaTree.bare_of_parse parsed))
  refine ⟨_, by rw [document, type_entries_eq names]; rfl, ?_, ?_, ?_, ?_⟩
  · intro t member
    rw [← field_texts_eq (distinct.1 t)]
    exact get_collected_iff names
      (List.mem_append_left _ (List.mem_map_of_mem member)) nofun
  · intro e member
    exact get_collected_iff names
      (List.mem_append_right _ (List.mem_map_of_mem member)) nofun
  · intro a member
    obtain ⟨last, listed, same, found⟩ := find_alias_some ⟨a, member, rfl⟩
    have texts := stages.type_name_of_name treelike (List.mem_of_mem_filter listed)
      (List.mem_of_mem_filter member) same
    rw [get_add_definitions, found, ← texts]
    rfl
  · intro o member
    have last := Table.get?_foldl_insert Operation.name final.signature final.operations o.name []
    change Table.get? (Table.ofEntries (final.operations.map fun o => (o.name, final.signature o)))
      o.name = _
    rw [Table.ofEntries, List.foldl_map, last]
    cases found : final.operations.reverse.find? (·.name == o.name) with
    | none => rfl
    | some other =>
      have listed := List.mem_reverse.mp (List.mem_of_find?_eq_some found)
      exact congrArg some (signature_eq (distinct.2 other listed))

def addresses : String :=
  "type UserAddress int\ntype User \x7b address: \x7b street: string \x7d \x7d\nfn f(u: User)"

theorem addresses_entries : ∃ tree final d,
    SchemaTree.parse ⟨[], []⟩ "-" addresses = .ok tree ∧ (ofTree tree).analyse = .ok final ∧
      final.document = .ok d ∧
      ∀ t ∈ final.structOrder,
        d.types.get? (final.struct t).name =
            some (.struct ((final.struct t).fields.map final.fieldText)) ↔
          ¬ final.IsAlias (final.struct t).name := by
  have compiles : ((SchemaTree.parse ⟨[], []⟩ "-" addresses).toOption.map fun tree =>
      (ofTree tree).analyse.isOk) = some true := by
    simp only [SchemaTree.parse_by_chars]
    decide +kernel
  cases parsed : SchemaTree.parse ⟨[], []⟩ "-" addresses with
  | error e => rw [parsed] at compiles; cases compiles
  | ok tree =>
    rw [parsed] at compiles
    obtain ⟨final, accepted⟩ := exists_of_is_ok (Option.some.inj compiles)
    obtain ⟨d, written, structs, _⟩ := document_entries parsed accepted
    exact ⟨tree, final, d, rfl, accepted, written, structs⟩

/-- The struct `UserAddress` has no entry, because the alias has taken it. -/
theorem address_overwritten :
    ((SchemaTree.parse ⟨[], []⟩ "-" addresses).toOption.bind fun tree =>
      (ofTree tree).analyse.toOption.bind fun final =>
        final.document.toOption.map fun d =>
          (final.structOrder.map fun t => (final.struct t).name, d.types.get? "UserAddress")) =
      some (["UserAddress", "User"], some (.text "int")) := by
  simp only [SchemaTree.parse_by_chars]
  decide +kernel

end ApiSchema.Schema
