import ApiSchema.Proofs.Document.Permutation
import ApiSchema.Proofs.Document.Rebuilding
import ApiSchema.Proofs.Document.Storing
import ApiSchema.Proofs.Document.Writing
import ApiSchema.Proofs.Rest.Checking

/-! What an accepted schema is loaded as from its own document. Structs and enums are numbered anew, in
the order in which they were found. Each has a definition of its own name, and where it was written
inside of a declaration there is a reference to it. -/

namespace ApiSchema

theorem zip_idx_of_nodup {α : Type} [BEq α] [LawfulBEq α] {items : List α} (distinct : items.Nodup) :
    items.zipIdx = items.map fun a => (a, items.idxOf a) := by
  apply List.ext_getElem
  · simp
  · intro n inside _
    rw [List.length_zipIdx] at inside
    simp [distinct.idxOf_getElem n inside]

theorem TypeText.read_suffixed {name : String} (whole : peel? name = none) (suffixes : List Suffix) :
    read (suffixes.foldr (fun suffix text => text ++ suffix.text) name) = ⟨suffixes, baseOf name⟩ := by
  induction suffixes with
  | nil => exact read_of_peel? whole
  | cons suffix rest ih => rw [List.foldr_cons, read_append, ih]

namespace Schema

section Telling

variable (s : Schema)

/-- A base as it is read from its name. -/
def told (base : TypeBase) : TypeBase := TypeText.baseOf (s.baseName base)

def retold (t : TypeUse) : TypeUse := ⟨t.suffixes, s.told t.base⟩

def retoldField (id : FieldId) : Field :=
  ⟨(s.field id).name, s.retold (s.field id).type, false,
    (Note.descriptions (s.field id).notes).map fun text => ⟨.description text, {}⟩, {}⟩

def retoldNotes (notes : List Note) : List Note := notes.map fun n => ⟨storedNote n.content, {}⟩

def retoldError (e : ErrorKind) : ErrorKind := ⟨e.name, s.retold e.data, retoldNotes e.notes, {}⟩

/-- A struct or an enum with the number of its place among those that were found. -/
def seat : TypeBase → TypeBase
  | .struct t => .struct (s.structOrder.idxOf t)
  | .enum e => .enum (s.enumOrder.idxOf e)
  | base => base

def retoldValue (v : EnumValue) : EnumValue := ⟨v.text, v.data.map (s.structOrder.idxOf ·), [], {}⟩

def seatDefinition (base : TypeBase) : Definition := ⟨s.baseName base, .ofBase (s.seat base), [], {}⟩

def structTexts : Table (Table String) :=
  s.structOrder.map fun t => ((s.struct t).name, s.fieldTexts (s.struct t).fields)

def enumTexts : Table (List (String × Option String)) :=
  s.enumOrder.map fun e => ((s.enum e).name, s.enumMembers (s.enum e))

def aliasTexts : Table String := Table.ofEntries (s.aliases.map fun a => (a.name, s.typeName a.type))

end Telling

structure RetellsOperation (s g : Schema) (o o' : Operation) : Prop where
  name : o'.name = o.name
  members : o'.members = []
  args : o'.args.map g.field = o.args.map s.retoldField
  returns : o'.returns = s.retold o.returns
  notes : o'.notes = retoldNotes o.notes

/-- A schema that is what another one is loaded as, whatever names its structs and enums have. -/
structure Retells (s g : Schema) : Prop where
  structCount : g.structs.size = s.structOrder.length
  enumCount : g.enums.size = s.enumOrder.length
  members : ∀ t ∈ s.structOrder, (g.struct (s.structOrder.idxOf t)).members = []
  fields : ∀ t ∈ s.structOrder,
    (g.struct (s.structOrder.idxOf t)).fields.map g.field = (s.struct t).fields.map s.retoldField
  values : ∀ e ∈ s.enumOrder,
    (g.enum (s.enumOrder.idxOf e)).values = (s.enum e).values.map s.retoldValue
  definitions : g.definitions = s.collected.map s.seatDefinition ++ s.aliasTexts.map textDefinition
  operations : List.Forall₂ (s.RetellsOperation g) s.operations g.operations
  errors : g.errors = s.errors.map s.retoldError

structure Projects (final : Schema) (d : Document) : Prop where
  compiles : final.Compiles d
  unclashed : final.Unclashed
  operations : (final.operations.map (·.name)).Nodup
  errors : (final.errors.map (·.name)).Nodup

variable {s g final : Schema} {d : Document}

theorem Projects.stages (projects : final.Projects d) :
    ∃ (tree : SchemaTree) (named expanded : Schema), Accepted (ofTree tree) named expanded final := by
  obtain ⟨_, _, _, tree, _, accepted⟩ := projects.compiles.accepted
  exact ⟨tree, accepted_of_analyse accepted⟩

section Places

/-- The parts of the places of fields, and what is written there. -/
def fieldPlaces (s : Schema) (stem : String) (ids : List FieldId) :
    List ((String × String) × List Annotation) :=
  ids.map fun id => ((stem, (s.field id).name),
    (Note.descriptions (s.field id).notes).map .description)

def operationPlaces (s : Schema) (o : Operation) : List ((String × String) × List Annotation) :=
  s.fieldPlaces s!"fn.{o.name}" o.args ++ [(("fn", o.name), o.notes.map fun n => storedNote n.content)]

def errorPlace (e : ErrorKind) : (String × String) × List Annotation :=
  (("error", e.name), e.notes.map fun n => storedNote n.content)

def places (s : Schema) : List ((String × String) × List Annotation) :=
  s.structOrder.flatMap (fun t => s.fieldPlaces s!"type.{(s.struct t).name}" (s.struct t).fields)
    ++ s.operations.flatMap s.operationPlaces ++ s.errors.map errorPlace

def placeText (parts : String × String) : String := s!"{parts.1}.{parts.2}"

def noted (list : (String × String) × List Annotation) : List (String × Annotation) :=
  list.2.map (placeText list.1, ·)

theorem field_notes_eq (stem : String) (ids : List FieldId) :
    s.fieldNotes stem ids = (s.fieldPlaces stem ids).flatMap noted := by
  rw [fieldPlaces, List.flatMap_map]
  refine congrArg (List.flatMap · ids) (funext fun id => ?_)
  simp only [noted, List.map_map]
  rfl

theorem operation_notes_eq (o : Operation) : s.operationNotes o = (s.operationPlaces o).flatMap noted := by
  rw [operationNotes, operationPlaces, field_notes_eq, List.flatMap_append, List.flatMap_singleton]
  simp only [noted, List.map_map]
  rfl

theorem error_notes_eq (e : ErrorKind) : errorNotes e = noted (errorPlace e) := by
  simp only [errorNotes, noted, errorPlace, List.map_map]
  rfl

theorem placed_notes_eq : s.placedNotes = s.places.flatMap noted := by
  have structs : s.structNotes = fun t =>
      (s.fieldPlaces s!"type.{(s.struct t).name}" (s.struct t).fields).flatMap noted :=
    funext fun t => field_notes_eq _ _
  have operations : s.operationNotes = fun o => (s.operationPlaces o).flatMap noted :=
    funext operation_notes_eq
  have errors : errorNotes = fun e => noted (errorPlace e) := funext error_notes_eq
  rw [placedNotes, structs, operations, errors, places]
  simp only [List.flatMap_append, List.flatMap_assoc, List.flatMap_map]

theorem nodup_flatMap_of_owner {α β γ : Type} {f : α → List β} {k : α → γ} {items : List α}
    (distinct : (items.map k).Nodup) (each : ∀ a ∈ items, (f a).Nodup) (owner : β → γ)
    (owned : ∀ a ∈ items, ∀ b ∈ f a, owner b = k a) : (items.flatMap f).Nodup := by
  refine List.nodup_flatMap.mpr ⟨each, (List.pairwise_map.mp distinct).imp_of_mem ?_⟩
  intro a a' member member' other b first second
  exact other ((owned a member b first).symm.trans (owned a' member' b second))

/-- What the places of a schema are told apart by. -/
structure Placeable (s : Schema) : Prop where
  structs : (s.structOrder.map fun t => (s.struct t).name).Nodup
  fields : ∀ t, s.DistinctNames (s.struct t).fields
  operations : (s.operations.map (·.name)).Nodup
  args : ∀ o ∈ s.operations, s.DistinctNames o.args
  errors : (s.errors.map (·.name)).Nodup
  fieldWords : ∀ id, Lexer.IsName (s.field id).name
  operationWords : ∀ o ∈ s.operations, Lexer.IsName o.name
  errorWords : ∀ e ∈ s.errors, Lexer.IsName e.name

def fieldKeys (s : Schema) (stem : String) (ids : List FieldId) : List (String × String) :=
  ids.map fun id => (stem, (s.field id).name)

theorem field_places_keys (stem : String) (ids : List FieldId) :
    (s.fieldPlaces stem ids).map (·.1) = s.fieldKeys stem ids := by
  simp only [fieldPlaces, fieldKeys, List.map_map, Function.comp_def]

theorem field_keys_nodup {ids : List FieldId} (distinct : s.DistinctNames ids) (stem : String) :
    (s.fieldKeys stem ids).Nodup := by
  apply List.Nodup.of_map (·.2)
  rw [fieldKeys, List.map_map]
  exact distinct

theorem mem_field_keys {ids : List FieldId} {stem : String} {parts : String × String} :
    parts ∈ s.fieldKeys stem ids ↔ ∃ id ∈ ids, parts = (stem, (s.field id).name) := by
  simp only [fieldKeys, List.mem_map, eq_comm]

def operationKeys (s : Schema) (o : Operation) : List (String × String) :=
  s.fieldKeys s!"fn.{o.name}" o.args ++ [("fn", o.name)]

theorem places_keys : s.places.map (·.1) =
    s.structOrder.flatMap (fun t => s.fieldKeys s!"type.{(s.struct t).name}" (s.struct t).fields)
      ++ s.operations.flatMap s.operationKeys ++ s.errors.map fun e => ("error", e.name) := by
  have operations : s.operationKeys = fun o => (s.operationPlaces o).map (·.1) := funext fun o => by
    rw [operationPlaces, List.map_append, field_places_keys]
    rfl
  simp only [places, List.map_append, List.map_flatMap, field_places_keys, operations, List.map_map,
    errorPlace, Function.comp_def]

theorem stems_nodup {α : Type} {items : List α} {nameOf : α → String}
    (distinct : (items.map nameOf).Nodup) (front : String) :
    (items.map fun a => front ++ nameOf a).Nodup := by
  have apart := distinct.map (f := (front ++ ·)) fun _ _ => (String.append_right_inj front).mp
  rwa [List.map_map] at apart

theorem function_stem_apart (name : String) : "fn." ++ name ≠ "fn" := by
  simp [← String.toList_inj]

theorem Placeable.operation_keys_nodup (placeable : s.Placeable) :
    (s.operations.flatMap s.operationKeys).Nodup := by
  refine nodup_flatMap_of_owner (k := fun o : Operation => "fn." ++ o.name)
    (stems_nodup placeable.operations _) (fun o member => ?_)
    (fun parts => if parts.1 = "fn" then "fn." ++ parts.2 else parts.1) ?_
  · refine List.nodup_append.mpr ⟨field_keys_nodup (placeable.args o member) _,
      List.nodup_singleton _, fun parts first other second same => ?_⟩
    obtain ⟨id, _, rfl⟩ := mem_field_keys.mp first
    cases List.mem_singleton.mp second
    exact function_stem_apart o.name (congrArg Prod.fst same)
  · intro o _ parts member
    rcases List.mem_append.mp member with field | own
    · obtain ⟨id, _, rfl⟩ := mem_field_keys.mp field
      exact if_neg (function_stem_apart o.name)
    · cases List.mem_singleton.mp own
      exact if_pos rfl

theorem Placeable.keys_nodup (placeable : s.Placeable) : (s.places.map (·.1)).Nodup := by
  have structs : (s.structOrder.flatMap fun t =>
      s.fieldKeys s!"type.{(s.struct t).name}" (s.struct t).fields).Nodup := by
    refine nodup_flatMap_of_owner (stems_nodup placeable.structs "type.")
      (fun t _ => field_keys_nodup (placeable.fields t) _) (·.1) ?_
    intro t _ parts member
    obtain ⟨id, _, rfl⟩ := mem_field_keys.mp member
    rfl
  have errors : (s.errors.map fun e => ("error", e.name)).Nodup := by
    apply List.Nodup.of_map (·.2)
    simpa only [List.map_map, Function.comp_def] using placeable.errors
  have front : ∀ parts ∈ s.structOrder.flatMap fun t =>
      s.fieldKeys s!"type.{(s.struct t).name}" (s.struct t).fields, parts.1.toList.head? = some 't' := by
    intro parts member
    obtain ⟨t, _, held⟩ := List.mem_flatMap.mp member
    obtain ⟨id, _, rfl⟩ := mem_field_keys.mp held
    change ("type." ++ (s.struct t).name).toList.head? = some 't'
    simp
  have front' : ∀ parts ∈ s.operations.flatMap s.operationKeys, parts.1.toList.head? = some 'f' := by
    intro parts member
    obtain ⟨o, _, held⟩ := List.mem_flatMap.mp member
    rcases List.mem_append.mp held with field | own
    · obtain ⟨id, _, rfl⟩ := mem_field_keys.mp field
      change ("fn." ++ o.name).toList.head? = some 'f'
      simp
    · cases List.mem_singleton.mp own
      simp
  rw [places_keys]
  refine List.nodup_append.mpr ⟨List.nodup_append.mpr ⟨structs, placeable.operation_keys_nodup,
    fun parts first other second same => ?_⟩, errors, fun parts first other second same => ?_⟩
  · have heads := (front parts first).symm.trans ((congrArg (·.1.toList.head?) same).trans (front' other second))
    cases heads
  · obtain ⟨e, _, rfl⟩ := List.mem_map.mp second
    cases same
    rcases List.mem_append.mp first with member | member
    · simpa using front _ member
    · simpa using front' _ member

theorem Placeable.words (placeable : s.Placeable) : ∀ parts ∈ s.places.map (·.1), Lexer.IsName parts.2 := by
  rw [places_keys]
  intro parts member
  rcases List.mem_append.mp member with member | member
  · rcases List.mem_append.mp member with member | member
    · obtain ⟨t, _, held⟩ := List.mem_flatMap.mp member
      obtain ⟨id, _, rfl⟩ := mem_field_keys.mp held
      exact placeable.fieldWords id
    · obtain ⟨o, listed, held⟩ := List.mem_flatMap.mp member
      rcases List.mem_append.mp held with field | own
      · obtain ⟨id, _, rfl⟩ := mem_field_keys.mp field
        exact placeable.fieldWords id
      · cases List.mem_singleton.mp own
        exact placeable.operationWords o listed
  · obtain ⟨e, listed, rfl⟩ := List.mem_map.mp member
    exact placeable.errorWords e listed

theorem Placeable.texts_nodup (placeable : s.Placeable) :
    (s.places.map fun list => placeText list.1).Nodup := by
  have apart := placeable.keys_nodup.map_on (f := placeText) fun parts member other member' same => by
    obtain ⟨stem, last⟩ := split_place (placeable.words parts member) (placeable.words other member') same
    exact Prod.ext stem last
  rwa [List.map_map] at apart

theorem Placeable.notes_at (placeable : s.Placeable) (written : s.document = .ok d)
    {list : (String × String) × List Annotation} (member : list ∈ s.places) :
    notesAt d (placeText list.1) = list.2.map fun a => ⟨a, {}⟩ := by
  have lists : s.places.flatMap noted =
      (s.places.map fun list => (placeText list.1, list.2)).flatMap fun list => list.2.map (list.1, ·) := by
    rw [List.flatMap_map]
    rfl
  have distinct : ((s.places.map fun list => (placeText list.1, list.2)).map (·.1)).Nodup := by
    rw [List.map_map]
    exact placeable.texts_nodup
  rw [notesAt, notes_of_document written, Table.items_foldl_append, placed_notes_eq, lists,
    Table.items_of_lists distinct (List.mem_map_of_mem member)]

theorem Placeable.field_notes_at (placeable : s.Placeable) (written : s.document = .ok d) {stem : String}
    {ids : List FieldId} {id : FieldId} (listed : s.fieldPlaces stem ids ⊆ s.places) (member : id ∈ ids) :
    notesAt d s!"{stem}.{(s.field id).name}" =
      (Note.descriptions (s.field id).notes).map fun text => ⟨.description text, {}⟩ := by
  have noted := placeable.notes_at written (listed (List.mem_map_of_mem member))
  rwa [List.map_map] at noted

end Places

section Types

theorem zip_idx_map {α β : Type} [BEq α] [LawfulBEq α] {items : List α} (distinct : items.Nodup)
    (f : α → β) : (items.map f).zipIdx = items.map fun a => (f a, items.idxOf a) := by
  rw [List.zipIdx_map, zip_idx_of_nodup distinct, List.map_map]
  rfl

theorem struct_names_table (structs : Table (Table String))
    (enums : Table (List (String × Option String))) (texts : Table String) :
    structNames (Document.tableOf structs enums texts) = structs.keys := by
  simp [structNames, Document.tableOf, List.filterMap_append, List.filterMap_map, Table.keys]

theorem table_of_texts : Document.tableOf s.structTexts s.enumTexts s.aliasTexts =
    s.collectedEntries ++ s.aliasTexts.map fun entry => (entry.1, .text entry.2) := by
  rw [Document.tableOf, collectedEntries, structTexts, enumTexts, List.map_map, List.map_map]
  rfl

namespace Projects

variable (projects : final.Projects d)

include projects

theorem types_eq : d.types = Document.tableOf final.structTexts final.enumTexts final.aliasTexts := by
  have free : ∀ a ∈ final.aliases, a.name ∉ final.collectedEntries.keys := by
    intro a member taken
    rw [collected_entries_keys] at taken
    obtain ⟨base, listed, same⟩ := List.mem_map.mp taken
    exact projects.unclashed base listed ⟨a, member, same.symm⟩
  have added := Table.foldl_insert_append Definition.name
    (fun a => TypeDescription.text (final.typeName a.type)) free []
  have texts : final.aliases.foldl
      (fun types a => Table.insert types a.name (TypeDescription.text (final.typeName a.type))) [] =
        final.aliasTexts.map fun entry => (entry.1, .text entry.2) := by
    rw [aliasTexts, Table.map_ofEntries, Table.ofEntries, List.foldl_map, List.foldl_map]
  rw [List.append_nil] at added
  rw [projects.compiles.types, add_definitions_eq, added, texts, table_of_texts]

theorem collected_names : (final.collected.map final.baseName).Nodup :=
  document_iff.mp ⟨d, projects.compiles.document⟩

theorem struct_order_nodup : final.structOrder.Nodup := by
  have names := projects.collected_names
  rw [collected, List.map_append, List.map_map] at names
  exact .of_map _ (List.nodup_append.mp names).1

theorem enum_order_nodup : final.enumOrder.Nodup := by
  have names := projects.collected_names
  rw [collected, List.map_append, List.map_map, List.map_map] at names
  exact .of_map _ (List.nodup_append.mp names).2.1

theorem struct_number {t : StructId} (member : t ∈ final.structOrder) :
    (structNumbers d.types).get? (final.struct t).name = some (final.structOrder.idxOf t) := by
  have names : structNames d.types = final.structOrder.map fun t => (final.struct t).name := by
    rw [projects.types_eq, struct_names_table, structTexts, Table.keys, List.map_map]
    rfl
  have distinct : (final.structOrder.map fun t => (final.struct t).name).Nodup := by
    have all := projects.collected_names
    rw [collected, List.map_append, List.map_map] at all
    exact (List.nodup_append.mp all).1
  obtain ⟨before, after, split⟩ := List.append_of_mem member
  rw [structNumbers, names]
  rw [split, List.map_append, List.map_cons] at distinct ⊢
  have fresh : (final.struct t).name ∉ before.map fun t => (final.struct t).name := fun taken =>
    (List.nodup_append.mp distinct).2.2 _ taken _ (List.mem_cons_self ..) rfl
  have unlisted : t ∉ before := fun listed => fresh (List.mem_map_of_mem listed)
  have numbered := @lookup_zip _ _ (after.map fun t => (final.struct t).name) fresh 0
  rw [← List.range_eq_range', Nat.zero_add, List.length_map] at numbered
  rw [Table.get?, numbered, List.idxOf_append_of_notMem unlisted, List.idxOf_cons_self, Nat.add_zero]

theorem capital {base : TypeBase} (member : base ∈ final.collected) :
    Text.StartsCapital (final.baseName base) := by
  obtain ⟨files, file, source, tree, parsed, accepted⟩ := projects.compiles.accepted
  obtain ⟨named, expanded, stages⟩ := accepted_of_analyse accepted
  have treelike := treelike_of_tree tree
  obtain ⟨known, nested⟩ := stages.collected_known member
  obtain ⟨path, called⟩ := (stages.known known).called nested
  have names := well_named_of_name_types treelike.add_fatal stages.names
  rw [stages.base_name, names.called path base called nested]
  exact called.starts_capital (stages.named_worded treelike (worded_of_parse parsed))

theorem whole {t : TypeUse} (stated : final.Stated t) : TypeText.peel? (final.baseName t.base) = none := by
  obtain ⟨files, file, source, tree, parsed, accepted⟩ := projects.compiles.accepted
  obtain ⟨named, expanded, stages⟩ := accepted_of_analyse accepted
  have treelike := treelike_of_tree tree
  have worded := worded_of_parse parsed
  have known := stated.known
  have ends := stages.stated_name_ends treelike worded stated
  cases shape : t.base with
  | primitive kind => exact TypeText.peel?_primitive kind
  | struct | enum =>
    rw [shape] at ends
    exact (ends trivial).not_peeled
  | reference name location =>
    rw [shape] at known
    obtain ⟨a, defined⟩ := Option.isSome_iff_exists.mp (stages.bound treelike.grounded name location known)
    obtain ⟨member, rfl⟩ := name_of_definition defined
    obtain ⟨first, written, same⟩ := stages.exists_written treelike member
    have ends := EndsInWord.of_word (worded.definitions first written)
    rw [same] at ends
    exact ends.not_peeled

theorem read_stated {t : TypeUse} (stated : final.Stated t) :
    TypeText.read (final.typeName t) = final.retold t :=
  TypeText.read_suffixed (projects.whole stated) t.suffixes

theorem known_struct {t : StructId} (member : t ∈ final.structOrder) : final.Known (.struct t) :=
  projects.compiles.collected_known (List.mem_append_left _ (List.mem_map_of_mem member))

theorem known_enum {e : EnumId} (member : e ∈ final.enumOrder) : final.Known (.enum e) :=
  projects.compiles.collected_known (List.mem_append_right _ (List.mem_map_of_mem member))

theorem listed_struct {t : StructId} (known : final.Known (.struct t)) : t ∈ final.structOrder := by
  obtain ⟨tree, named, expanded, stages⟩ := projects.stages
  simpa [collected] using stages.collects known trivial

theorem listed_enum {e : EnumId} (known : final.Known (.enum e)) : e ∈ final.enumOrder := by
  obtain ⟨tree, named, expanded, stages⟩ := projects.stages
  simpa [collected] using stages.collects known trivial

theorem placeable : final.Placeable := by
  obtain ⟨files, file, source, tree, parsed, accepted⟩ := projects.compiles.accepted
  obtain ⟨named, expanded, stages⟩ := accepted_of_analyse accepted
  have treelike := treelike_of_tree tree
  have bare := SchemaTree.bare_of_parse parsed
  have worded := stages.named_worded treelike (worded_of_parse parsed)
  have distinct := stages.distinct_fields treelike (unexpanded_of_tree bare)
  have names := projects.collected_names
  rw [collected, List.map_append, List.map_map] at names
  refine ⟨(List.nodup_append.mp names).1, distinct.1, projects.operations, distinct.2, projects.errors,
    stages.words treelike (holds_bare_of_tree bare).names, fun o member => ?_, fun e member => ?_⟩
  · rw [stages.final] at member
    obtain ⟨before, declared, expands⟩ := exists_left stages.expands.operations member
    rw [expands.name]
    exact (worded.operations before declared).spelt
  · rw [stages.final] at member
    have errors : expanded.errors = named.errors := stages.expands.inherits.errors
    exact (worded.errors e (errors ▸ member)).spelt

theorem retold_field {stem : String} {ids : List FieldId} {place : Option String}
    (same : place = some stem) (listed : final.fieldPlaces stem ids ⊆ final.places)
    {id : FieldId} (stated : final.Stated (final.field id).type) (member : id ∈ ids) :
    textField d place (final.fieldText id) = final.retoldField id := by
  subst same
  have noted := projects.placeable.field_notes_at projects.compiles.document listed member
  simp only [textField, fieldText, retoldField, projects.read_stated stated]
  rw [← noted]

theorem struct_fields_read {t : StructId} (member : t ∈ final.structOrder) :
    (final.fieldTexts (final.struct t).fields).map (textField d (structPlace (final.struct t).name)) =
      (final.struct t).fields.map final.retoldField := by
  have present : (final.struct t).name ≠ "" := (projects.capital
    (List.mem_append_left _ (List.mem_map_of_mem member))).present
  have place : structPlace (final.struct t).name = some s!"type.{(final.struct t).name}" :=
    if_neg (by simpa using present)
  have listed : final.fieldPlaces s!"type.{(final.struct t).name}" (final.struct t).fields ⊆
      final.places := fun list held =>
    List.mem_append_left _ (List.mem_append_left _ (List.mem_flatMap.mpr ⟨t, member, held⟩))
  rw [field_texts_eq (projects.placeable.fields t), List.map_map]
  exact List.map_congr_left fun id held =>
    projects.retold_field place listed (.field (projects.known_struct member) held) held

theorem args_read {o : Operation} (member : o ∈ final.operations) :
    (final.fieldTexts o.args).map (textField d (some s!"fn.{o.name}")) =
      o.args.map final.retoldField := by
  have listed : final.fieldPlaces s!"fn.{o.name}" o.args ⊆ final.places := fun list held =>
    List.mem_append_left _ (List.mem_append_right _
      (List.mem_flatMap.mpr ⟨o, member, List.mem_append_left _ held⟩))
  rw [field_texts_eq (projects.placeable.args o member), List.map_map]
  exact List.map_congr_left fun id held => projects.retold_field rfl listed (.argument member held) held

theorem operations_eq : d.operations = final.operations.map fun o => (o.name, final.signature o) := by
  have document := projects.compiles.document
  rw [Schema.document, type_entries_eq projects.collected_names] at document
  cases document
  refine Table.ofEntries_of_nodup ?_
  rw [List.map_map]
  exact projects.operations

theorem errors_eq : d.errors = final.errors.map final.errorEntry := by
  have document := projects.compiles.document
  rw [Schema.document, type_entries_eq projects.collected_names] at document
  cases document
  rfl

theorem operation_notes_read {o : Operation} (member : o ∈ final.operations) :
    notesAt d s!"fn.{o.name}" = retoldNotes o.notes := by
  have listed : (("fn", o.name), o.notes.map fun n => storedNote n.content) ∈ final.places :=
    List.mem_append_left _ (List.mem_append_right _ (List.mem_flatMap.mpr
      ⟨o, member, List.mem_append_right _ (List.mem_singleton_self _)⟩))
  have noted := projects.placeable.notes_at projects.compiles.document listed
  rw [List.map_map] at noted
  exact noted

theorem error_read {e : ErrorKind} (member : e ∈ final.errors) :
    describedError d (final.errorEntry e) = final.retoldError e := by
  have noted := projects.placeable.notes_at projects.compiles.document
    (List.mem_append_right _ (List.mem_map_of_mem (f := errorPlace) member))
  rw [errorPlace, List.map_map] at noted
  have notes : notesAt d s!"error.{e.name}" = retoldNotes e.notes := noted
  have data : ((final.errorEntry e).2.map TypeText.read).getD (.primitive .void) = final.retold e.data := by
    rw [errorEntry]
    split
    · next void =>
      rw [is_primitive_iff.mp void]
      rfl
    · exact projects.read_stated (.error member)
  rw [retoldError, ← notes, ← data]
  rfl

theorem value_read {e : EnumId} (member : e ∈ final.enumOrder) {v : EnumValue}
    (held : v ∈ (final.enum e).values) :
    describedValue d (v.text, v.data.map fun t => (final.struct t).name) = final.retoldValue v := by
  rw [describedValue, retoldValue]
  cases data : v.data with
  | none => rfl
  | some t =>
    have inside := (projects.known_enum member).reaches (.single (.value held data))
    dsimp only [Option.map, Option.bind]
    rw [projects.struct_number (projects.listed_struct inside)]

end Projects

theorem Projects.retells (projects : final.Projects d) : final.Retells (ofDocument d) := by
  have restates := restates_of_document projects.types_eq
  have seats : ∀ t ∈ final.structOrder, StructAt d "" (ofDocument d) (final.structOrder.idxOf t)
      ((final.struct t).name, final.fieldTexts (final.struct t).fields) := by
    intro t member
    refine restates.struct (_, _) ?_
    rw [structTexts, zip_idx_map projects.struct_order_nodup]
    exact List.mem_map_of_mem member
  have enums : ∀ e ∈ final.enumOrder, EnumAt d "" (ofDocument d) (final.enumOrder.idxOf e)
      ((final.enum e).name, final.enumMembers (final.enum e)) := by
    intro e member
    refine restates.enum (_, _) ?_
    rw [enumTexts, zip_idx_map projects.enum_order_nodup]
    exact List.mem_map_of_mem member
  constructor
  · rw [restates.structCount, structTexts, List.length_map]
  · rw [restates.enumCount, enumTexts, List.length_map]
  · intro t member
    obtain ⟨_, ids, same, _⟩ := seats t member
    rw [same]
  · intro t member
    obtain ⟨_, ids, same, _, fields⟩ := seats t member
    rw [same, fields]
    exact projects.struct_fields_read member
  · intro e member
    rw [(enums e member).2, enumMembers, List.map_map]
    exact List.map_congr_left fun v held => projects.value_read member held
  · rw [restates.definitions, structTexts, enumTexts, zip_idx_map projects.struct_order_nodup,
      zip_idx_map projects.enum_order_nodup, List.map_map, List.map_map, collected, List.map_append,
      List.map_map, List.map_map]
    rfl
  · have operations := restates.operations
    rw [projects.operations_eq, List.forall₂_map_left_iff] at operations
    refine forall_of_mem operations fun o member o' _ held => ?_
    obtain ⟨ids, rfl, _, fields⟩ := held
    exact ⟨rfl, rfl, fields.trans (projects.args_read member), projects.read_stated (.returns member),
      projects.operation_notes_read member⟩
  · rw [restates.errors, projects.errors_eq, List.map_map]
    exact List.map_congr_left fun e member => projects.error_read member

end Types

end Schema

end ApiSchema
