import ApiSchema.Proofs.Analysis.Following
import ApiSchema.Proofs.Analysis.Paths
import ApiSchema.Proofs.Codec.Description
import ApiSchema.Proofs.Document.Entries

/-! The document of an accepted schema describes the types of the schema to the codec, if no entry
has been taken by another type and no name in it reads as that of a type with a suffix. -/

namespace ApiSchema

open Codec

namespace Document

def table (d : Document) : TypeTable :=
  d.types.map fun (name, type) => (.string name, descriptionValue type)

/-- No name in the document reads as that of a type with a suffix. -/
def Unsuffixed (d : Document) : Prop := ∀ name ∈ d.types.keys, TypeText.peel? name = none

instance (d : Document) : Decidable d.Unsuffixed :=
  inferInstanceAs (Decidable (∀ name ∈ d.types.keys, TypeText.peel? name = none))

theorem get_described (types : Table TypeDescription) (name : String) :
    Value.get? (types.map fun (name, type) => (.string name, descriptionValue type)) (.string name) =
      (types.get? name).map descriptionValue := by
  induction types with
  | nil => rfl
  | cons entry rest ih =>
    obtain ⟨key, type⟩ := entry
    rw [List.map_cons, Table.get?_cons]
    by_cases same : name = key
    · rw [if_pos same, same, Value.get?_cons_self]
      rfl
    · have other : Value.string key ≠ .string name := fun equal => same (Value.string.inj equal).symm
      rw [if_neg same, Value.get?_cons_other other, ih]

theorem get_table (d : Document) (name : String) :
    Value.get? d.table (.string name) = (d.types.get? name).map descriptionValue :=
  get_described d.types name

theorem name_or_pair_tagged (members : List (String × Option String)) :
    ∀ member ∈ members.map nameOrPair, ∀ tag type, memberPair member = .ok (tag, type) →
      ∃ text name, tag = .string text ∧ type = .string name := by
  intro member listed tag type pair
  obtain ⟨⟨text, data⟩, _, rfl⟩ := List.mem_map.mp listed
  cases data with
  | none => cases pair
  | some name =>
    cases pair
    exact ⟨_, _, rfl, rfl⟩

theorem description_of_value (type : TypeDescription) : Description (descriptionValue type) := by
  cases type with
  | text type => exact .name _
  | enum members =>
    refine .enum ?_ ?_
    · intro member listed tag type pair
      obtain ⟨_, _, rfl, _⟩ := name_or_pair_tagged members member listed tag type pair
      rfl
    · intro member listed tag type pair
      obtain ⟨_, _, _, rfl⟩ := name_or_pair_tagged members member listed tag type pair
      exact .name _
  | struct fields =>
    refine .struct fun key type member => ?_
    obtain ⟨inner, present, same⟩ := List.mem_map.mp member
    obtain ⟨field, _, rfl⟩ := List.mem_map.mp present
    cases same
    exact .name _

theorem described_table (d : Document) : Described d.table := by
  intro name type found
  rw [get_table] at found
  obtain ⟨entry, _, rfl⟩ := Option.map_eq_some_iff.mp found
  exact description_of_value entry

theorem text_table_eq (s : Schema) (ids : List FieldId) :
    textTable (ids.map s.fieldText) = recordType s ids := by
  simp only [textTable, record, recordType, List.map_map, Function.comp_def, Schema.fieldText]

theorem enum_value_eq (s : Schema) (e : EnumId) :
    descriptionValue (.enum (s.enumMembers (s.enum e))) = enumType s e := by
  simp only [descriptionValue, Schema.enumMembers, enumType, List.map_map]
  refine congrArg Value.list (List.map_congr_left fun v _ => ?_)
  unfold memberType
  dsimp only [Function.comp]
  cases v.data <;> rfl

end Document

namespace Schema

variable {s named expanded final : Schema} {d : Document}

/-- No definition of another type has the name that a struct or an enum was given. -/
def Unclashed (s : Schema) : Prop := ∀ base ∈ s.collected, ¬ s.IsAlias (s.baseName base)

instance (s : Schema) : Decidable s.Unclashed :=
  inferInstanceAs (Decidable (∀ base ∈ s.collected, ¬ ∃ d ∈ s.aliases, d.name = s.baseName base))

namespace Accepted

theorem exists_written (accepted : Accepted s named expanded final) (treelike : s.Treelike)
    {d : Definition} (member : d ∈ final.definitions) :
    ∃ first ∈ s.definitions, first.name = d.name := by
  have renamed := names_of_name_types treelike.add_fatal.grounded accepted.names
  rw [accepted.definitions] at member
  obtain ⟨first, written, replaced⟩ := exists_left renamed.definitions member
  exact ⟨first, s.add_fatal_same_types.definitions ▸ written, replaced.name.symm⟩

end Accepted

/-- An accepted source, and the document that is made of it. -/
structure Compiles (final : Schema) (d : Document) : Prop where
  accepted : ∃ files file source tree,
    SchemaTree.parse files file source = .ok tree ∧ (ofTree tree).analyse = .ok final
  document : final.document = .ok d

/-- What a source without imports is compiled to, if it is accepted. -/
def compiled? (source : String) : Option (Schema × Document) := do
  let tree ← (SchemaTree.parse ⟨[], []⟩ "-" source).toOption
  let final ← (ofTree tree).analyse.toOption
  let d ← final.document.toOption
  return (final, d)

theorem compiles_of_compiled {source : String} (found : compiled? source = some (final, d)) :
    final.Compiles d := by
  unfold compiled? at found
  obtain ⟨tree, parsed, found⟩ := Option.bind_eq_some_iff.mp found
  obtain ⟨final', accepted, found⟩ := Option.bind_eq_some_iff.mp found
  obtain ⟨d', written, found⟩ := Option.bind_eq_some_iff.mp found
  cases found
  exact ⟨⟨_, _, source, tree, ok_of_to_option parsed, ok_of_to_option accepted⟩,
    ok_of_to_option written⟩

namespace Compiles

theorem types (compiles : final.Compiles d) :
    d.types = final.definitions.foldl final.addDefinitionEntry final.collectedEntries :=
  types_of_document compiles.document

theorem collected_known (compiles : final.Compiles d) {base : TypeBase}
    (member : base ∈ final.collected) : final.Known base := by
  obtain ⟨files, file, source, tree, parsed, accepted⟩ := compiles.accepted
  obtain ⟨named, expanded, stages⟩ := accepted_of_analyse accepted
  exact (stages.collected_known member).1

theorem entry_cases (compiles : final.Compiles d) {name : String} {type : TypeDescription}
    (found : d.types.get? name = some type) :
    (∃ a ∈ final.aliases, a.name = name ∧ type = .text (final.typeName a.type)) ∨
      (∃ t, .struct t ∈ final.collected ∧ (name, type) = final.structEntry t) ∨
        ∃ e, .enum e ∈ final.collected ∧ (name, type) = final.enumEntry e := by
  rw [compiles.types, get_add_definitions] at found
  rcases Option.or_eq_some_iff.mp found with definition | ⟨_, entry⟩
  · obtain ⟨a, last, same⟩ := Option.map_eq_some_iff.mp definition
    have named := List.find?_some last
    have listed := List.mem_reverse.mp (List.mem_of_find?_eq_some last)
    exact .inl ⟨a, listed, by simpa using named, same.symm⟩
  · rcases List.mem_append.mp (Table.mem_of_get? entry) with taken | taken
    · obtain ⟨t, member, same⟩ := List.mem_map.mp taken
      exact .inr (.inl ⟨t, List.mem_append_left _ (List.mem_map_of_mem member), same.symm⟩)
    · obtain ⟨e, member, same⟩ := List.mem_map.mp taken
      exact .inr (.inr ⟨e, List.mem_append_right _ (List.mem_map_of_mem member), same.symm⟩)

theorem name_cases (compiles : final.Compiles d) {name : String} {type : TypeDescription}
    (found : d.types.get? name = some type) :
    (∃ a ∈ final.definitions, a.name = name) ∨
      ∃ base ∈ final.collected, final.baseName base = name := by
  rcases compiles.entry_cases found with ⟨a, member, same, _⟩ | ⟨t, member, same⟩ | ⟨e, member, same⟩
  · exact .inl ⟨a, List.mem_of_mem_filter member, same⟩
  · exact .inr ⟨_, member, (congrArg Prod.fst same).symm⟩
  · exact .inr ⟨_, member, (congrArg Prod.fst same).symm⟩

theorem not_scalar (compiles : final.Compiles d) {name : String} {type : TypeDescription}
    (found : d.types.get? name = some type) : Scalar.ofName? name = none := by
  obtain ⟨files, file, source, tree, parsed, accepted⟩ := compiles.accepted
  obtain ⟨named, expanded, stages⟩ := accepted_of_analyse accepted
  have treelike := treelike_of_tree tree
  rcases compiles.name_cases found with ⟨a, member, rfl⟩ | ⟨base, member, rfl⟩
  · obtain ⟨first, written, same⟩ := stages.exists_written treelike member
    have capital := capital_of_parse parsed first written
    rw [same] at capital
    refine Naming.not_scalar fun c head => ?_
    rw [← Text.capitalised_of_capital capital] at head
    exact Text.capitalised_head head
  · rw [stages.final] at member
    obtain ⟨known, nested⟩ := known_of_collected stages.grounded member
    obtain ⟨path, called⟩ := (stages.expands.known known).called nested
    have names := well_named_of_name_types treelike.add_fatal stages.names
    rw [stages.base_name, names.called path base called nested]
    exact Naming.not_scalar fun c head => Naming.name_of_path_head head

theorem own_name (compiles : final.Compiles d) {a : Definition} (member : a ∈ final.definitions)
    (nested : a.type.isNested = true) : final.typeName a.type = a.name := by
  obtain ⟨files, file, source, tree, parsed, accepted⟩ := compiles.accepted
  obtain ⟨named, expanded, stages⟩ := accepted_of_analyse accepted
  have treelike := treelike_of_tree tree
  obtain ⟨first, written, same⟩ := stages.exists_written treelike member
  have capital := capital_of_parse parsed first written
  rw [same] at capital
  have names := well_named_of_name_types treelike.add_fatal stages.names
  rw [stages.definitions] at member
  obtain ⟨name, ⟨suffixes, base⟩, notes, location⟩ := a
  simp only [TypeUse.isNested, Bool.and_eq_true, List.isEmpty_iff] at nested
  obtain ⟨rfl, nested⟩ := nested
  have own := names.own member (by cases base <;> trivial)
  rw [type_name_base, stages.base_name, own]
  change Naming.nameOfPath [name] = name
  simp only [Naming.nameOfPath, List.map_cons, List.map_nil, String.join_cons, String.join_nil,
    String.append_empty]
  exact Text.capitalised_of_capital capital

theorem distinct_fields (compiles : final.Compiles d) :
    (∀ t, final.DistinctNames (final.struct t).fields) ∧ ∀ o ∈ final.operations, final.DistinctNames o.args := by
  obtain ⟨files, file, source, tree, parsed, accepted⟩ := compiles.accepted
  obtain ⟨named, expanded, stages⟩ := accepted_of_analyse accepted
  exact stages.distinct_fields (treelike_of_tree tree)
    (unexpanded_of_tree (SchemaTree.bare_of_parse parsed))

theorem get_operation (compiles : final.Compiles d) (name : String) :
    d.operations.get? name =
      (final.operations.reverse.find? (·.name == name)).map final.ownSignature := by
  have document := compiles.document
  unfold Schema.document at document
  cases entries : final.typeEntries with
  | error e =>
    rw [entries] at document
    cases document
  | ok types =>
    rw [entries] at document
    cases document
    have last := Table.get?_foldl_insert Operation.name final.signature final.operations name []
    change Table.get? (Table.ofEntries (final.operations.map fun o => (o.name, final.signature o))) name = _
    rw [Table.ofEntries, List.foldl_map, last]
    cases found : final.operations.reverse.find? (·.name == name) with
    | none => rfl
    | some o =>
      have listed := List.mem_reverse.mp (List.mem_of_find?_eq_some found)
      exact congrArg some (signature_eq (compiles.distinct_fields.2 o listed))

theorem describes (compiles : final.Compiles d) (unclashed : final.Unclashed)
    (unsuffixed : d.Unsuffixed) : Describes d.table final := by
  obtain ⟨files, file, source, tree, parsed, accepted⟩ := compiles.accepted
  obtain ⟨named, expanded, stages⟩ := accepted_of_analyse accepted
  have treelike := treelike_of_tree tree
  have names := stages.collected_names treelike
  have distinct := stages.distinct_fields treelike
    (unexpanded_of_tree (SchemaTree.bare_of_parse parsed))
  constructor
  · exact d.described_table
  · exact stages.bound treelike.grounded
  · exact stages.trails treelike.grounded
  · intro t known
    have member := stages.collects known trivial
    have listed : t ∈ final.structOrder := by
      simpa [collected] using member
    have entry := (get_collected_iff names
      (List.mem_append_left _ (List.mem_map_of_mem listed)) (by simp)).mpr (unclashed _ member)
    change (final.definitions.foldl final.addDefinitionEntry final.collectedEntries).get?
      (final.struct t).name = _ at entry
    rw [Document.get_table, compiles.types, entry, ← Document.text_table_eq,
      ← field_texts_eq (distinct.1 t)]
    rfl
  · intro e known
    have member := stages.collects known trivial
    have listed : e ∈ final.enumOrder := by
      simpa [collected] using member
    have entry := (get_collected_iff names
      (List.mem_append_right _ (List.mem_map_of_mem listed)) (by simp)).mpr (unclashed _ member)
    change (final.definitions.foldl final.addDefinitionEntry final.collectedEntries).get?
      (final.enum e).name = _ at entry
    rw [Document.get_table, compiles.types, entry, ← Document.enum_value_eq]
    rfl
  · intro name location a known defined bare
    obtain ⟨written, rfl⟩ := name_of_definition defined
    have taken : final.IsAlias a.name :=
      ⟨a, List.mem_filter.mpr ⟨written, by rw [bare]; rfl⟩, rfl⟩
    obtain ⟨last, listed, same, found⟩ := find_alias_some taken
    have texts := stages.type_name_of_name treelike (List.mem_of_mem_filter listed) written same
    rw [Document.get_table, compiles.types, get_add_definitions, found, ← texts]
    rfl
  · intro name location a known defined nested
    obtain ⟨written, rfl⟩ := name_of_definition defined
    exact compiles.own_name written nested
  · intro name item found
    rw [Document.get_table] at found
    obtain ⟨type, found, _⟩ := Option.map_eq_some_iff.mp found
    refine ⟨unsuffixed name ?_, compiles.not_scalar found⟩
    rw [← Table.has_iff, Table.has, ← Table.get?, found]
    rfl
  · exact distinct.1
  · exact stages.distinct_values

end Compiles

end Schema

end ApiSchema
