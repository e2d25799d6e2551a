import ApiSchema.Proofs.Analysis.Idempotence
import ApiSchema.Proofs.Document.Retelling

/-! What a document is loaded as gets the names that were written, and its definitions denote what
they did. No check up to the one for recursions refuses it. -/

namespace ApiSchema.Schema

variable {s g final : Schema} {d : Document}

theorem not_nested_told (base : TypeBase) : ¬ (s.told base).IsNested := by
  unfold told TypeText.baseOf
  split <;> exact id

@[simp] theorem mem_collected_struct {t : StructId} : .struct t ∈ s.collected ↔ t ∈ s.structOrder := by
  simp [collected]

@[simp] theorem mem_collected_enum {e : EnumId} : .enum e ∈ s.collected ↔ e ∈ s.enumOrder := by
  simp [collected]

theorem collected_cases {base : TypeBase} (member : base ∈ s.collected) :
    (∃ t ∈ s.structOrder, base = .struct t) ∨ ∃ e ∈ s.enumOrder, base = .enum e := by
  rcases List.mem_append.mp member with listed | listed
  · obtain ⟨t, own, rfl⟩ := List.mem_map.mp listed
    exact .inl ⟨t, own, rfl⟩
  · obtain ⟨e, own, rfl⟩ := List.mem_map.mp listed
    exact .inr ⟨e, own, rfl⟩

theorem seat_nested {base : TypeBase} (member : base ∈ s.collected) : (s.seat base).IsNested := by
  rcases collected_cases member with ⟨t, _, rfl⟩ | ⟨e, _, rfl⟩ <;> trivial

theorem collected_nested {base : TypeBase} (member : base ∈ s.collected) : base.IsNested := by
  rcases collected_cases member with ⟨t, _, rfl⟩ | ⟨e, _, rfl⟩ <;> trivial

theorem is_nested_iff {t : TypeUse} : t.isNested = true ↔ t.suffixes = [] ∧ t.base.IsNested := by
  obtain ⟨suffixes, base⟩ := t
  cases suffixes <;> cases base <;> simp [TypeUse.isNested, TypeBase.IsNested]

theorem seat_not_reference {base : TypeBase} (member : base ∈ s.collected) {suffixes : List Suffix}
    {name : String} {location : Location} :
    (s.seatDefinition base).type ≠ ⟨suffixes, .reference name location⟩ := by
  intro same
  have nested := seat_nested member
  rwa [show s.seat base = .reference name location from congrArg TypeUse.base same] at nested

namespace Retells

variable (retells : s.Retells g)

include retells

theorem exists_field {t : StructId} (member : t ∈ s.structOrder) {id : FieldId}
    (held : id ∈ (g.struct (s.structOrder.idxOf t)).fields) :
    ∃ first ∈ (s.struct t).fields, g.field id = s.retoldField first := by
  have told := List.mem_map_of_mem (f := g.field) held
  rw [retells.fields t member] at told
  obtain ⟨first, listed, same⟩ := List.mem_map.mp told
  exact ⟨first, listed, same.symm⟩

theorem exists_value {e : EnumId} (member : e ∈ s.enumOrder) {v : EnumValue}
    (held : v ∈ (g.enum (s.enumOrder.idxOf e)).values) :
    ∃ first ∈ (s.enum e).values, v = s.retoldValue first := by
  rw [retells.values e member] at held
  obtain ⟨first, listed, same⟩ := List.mem_map.mp held
  exact ⟨first, listed, same.symm⟩

theorem exists_definition {a : Definition} (member : a ∈ g.definitions) :
    (∃ base ∈ s.collected, a = s.seatDefinition base) ∨ ∃ entry ∈ s.aliasTexts, a = textDefinition entry := by
  rw [retells.definitions] at member
  rcases List.mem_append.mp member with seated | written
  · obtain ⟨base, listed, same⟩ := List.mem_map.mp seated
    exact .inl ⟨base, listed, same.symm⟩
  · obtain ⟨entry, listed, same⟩ := List.mem_map.mp written
    exact .inr ⟨entry, listed, same.symm⟩

theorem exists_operation {o : Operation} (member : o ∈ g.operations) :
    ∃ first ∈ s.operations, s.RetellsOperation g first o :=
  exists_left retells.operations member

theorem exists_arg {o : Operation} (member : o ∈ g.operations) {id : FieldId} (held : id ∈ o.args) :
    ∃ o' ∈ s.operations, ∃ first ∈ o'.args, g.field id = s.retoldField first := by
  obtain ⟨o', listed, told⟩ := retells.exists_operation member
  have arg := List.mem_map_of_mem (f := g.field) held
  rw [told.args] at arg
  obtain ⟨first, written, same⟩ := List.mem_map.mp arg
  exact ⟨o', listed, first, written, same.symm⟩

theorem members_empty {t : StructId} (member : t ∈ s.structOrder) {m : Member}
    (held : m ∈ (g.struct (s.structOrder.idxOf t)).members) : False := by
  rw [retells.members t member] at held
  cases held

end Retells

namespace Projects

variable (projects : final.Projects d) (retells : final.Retells g)

include projects

theorem listed_of_known {base : TypeBase} (known : final.Known base) (nested : base.IsNested) :
    base ∈ final.collected := by
  cases base with
  | struct t => exact mem_collected_struct.mpr (projects.listed_struct known)
  | enum e => exact mem_collected_enum.mpr (projects.listed_enum known)
  | primitive | reference => exact absurd nested id

theorem data_listed {e : EnumId} (member : e ∈ final.enumOrder) {v : EnumValue}
    (held : v ∈ (final.enum e).values) {t : StructId} (data : v.data = some t) : t ∈ final.structOrder :=
  projects.listed_struct ((projects.known_enum member).reaches (.single (.value held data)))

include retells

theorem definition_base {a : Definition} (member : a ∈ g.definitions) :
    (∃ first ∈ final.collected, a.type.base = final.seat first) ∨
      ∃ t, final.Stated t ∧ a.type.base = final.told t.base := by
  rcases retells.exists_definition member with ⟨first, listed, rfl⟩ | ⟨entry, written, rfl⟩
  · exact .inl ⟨first, listed, rfl⟩
  · obtain ⟨first, listed, rfl⟩ := List.mem_map.mp (Table.mem_of_mem_ofEntries written)
    have stated := Stated.definition (List.mem_of_mem_filter listed)
    exact .inr ⟨_, stated, congrArg TypeUse.base (projects.read_stated stated)⟩

theorem known_cases {base : TypeBase} (known : g.Known base) :
    (∃ first ∈ final.collected, base = final.seat first) ∨
      ∃ t, final.Stated t ∧ base = final.told t.base := by
  refine Known.induction (motive := fun base => (∃ first ∈ final.collected, base = final.seat first) ∨
    ∃ t, final.Stated t ∧ base = final.told t.base) ?_ ?_ known
  · intro base declared
    cases declared with
    | definition member => exact projects.definition_base retells member
    | error member =>
      rw [retells.errors] at member
      obtain ⟨e, listed, rfl⟩ := List.mem_map.mp member
      exact .inr ⟨_, .error listed, rfl⟩
    | argument member held =>
      obtain ⟨_, _, told⟩ := retells.exists_operation member
      rw [told.members] at held
      obtain ⟨o, listed, first, arg, same⟩ := retells.exists_arg member (held.resolve_left List.not_mem_nil)
      exact .inr ⟨_, .argument listed arg, by rw [same]; rfl⟩
    | spread member held =>
      obtain ⟨_, _, told⟩ := retells.exists_operation member
      rw [told.members] at held
      cases held
    | returns member =>
      obtain ⟨o, listed, told⟩ := retells.exists_operation member
      exact .inr ⟨_, .returns listed, by rw [told.returns]; rfl⟩
  · intro base next found leads
    have held_struct : ∀ {t}, base = .struct t → ∃ first ∈ final.structOrder,
        t = final.structOrder.idxOf first := by
      rintro t rfl
      rcases found with ⟨first, listed, same⟩ | ⟨t, _, same⟩
      · rcases collected_cases listed with ⟨first, member, rfl⟩ | ⟨e, _, rfl⟩
        · exact ⟨first, member, TypeBase.struct.inj same⟩
        · cases same
      · exact absurd (same ▸ trivial : (final.told t.base).IsNested) (not_nested_told _)
    cases leads with
    | reference bound => exact projects.definition_base retells (name_of_definition bound).1
    | field held =>
      obtain ⟨t, member, rfl⟩ := held_struct rfl
      obtain ⟨first, written, same⟩ := retells.exists_field member
        (held.resolve_left fun spread => retells.members_empty member spread)
      exact .inr ⟨_, .field (projects.known_struct member) written, by rw [same]; rfl⟩
    | spread member =>
      obtain ⟨t, listed, rfl⟩ := held_struct rfl
      exact (retells.members_empty listed member).elim
    | value held data =>
      rcases found with ⟨first, listed, same⟩ | ⟨t, _, same⟩
      · rcases collected_cases listed with ⟨t, _, rfl⟩ | ⟨e, member, rfl⟩
        · cases same
        · cases same
          obtain ⟨v, written, rfl⟩ := retells.exists_value member held
          obtain ⟨t, own, rfl⟩ := Option.map_eq_some_iff.mp data
          exact .inl ⟨.struct t, mem_collected_struct.mpr (projects.data_listed member written own), rfl⟩
      · exact absurd (same ▸ trivial : (final.told t.base).IsNested) (not_nested_told _)

theorem seated {base : TypeBase} (known : g.Known base) (nested : base.IsNested) :
    ∃ first ∈ final.collected, base = final.seat first := by
  rcases projects.known_cases retells known with found | ⟨t, _, rfl⟩
  · exact found
  · exact absurd nested (not_nested_told _)

theorem seated_struct {t : StructId} (known : g.Known (.struct t)) :
    ∃ first ∈ final.structOrder, t = final.structOrder.idxOf first := by
  obtain ⟨base, listed, same⟩ := projects.seated retells known trivial
  rcases collected_cases listed with ⟨first, member, rfl⟩ | ⟨e, _, rfl⟩
  · exact ⟨first, member, TypeBase.struct.inj same⟩
  · cases same

theorem seated_enum {e : EnumId} (known : g.Known (.enum e)) :
    ∃ first ∈ final.enumOrder, e = final.enumOrder.idxOf first := by
  obtain ⟨base, listed, same⟩ := projects.seated retells known trivial
  rcases collected_cases listed with ⟨t, _, rfl⟩ | ⟨first, member, rfl⟩
  · cases same
  · exact ⟨first, member, TypeBase.enum.inj same⟩

end Projects

section Titles

variable (s) in
/-- The struct or the enum at a place. -/
def origin : TypeBase → TypeBase
  | .struct i => .struct (s.structOrder[i]?.getD 0)
  | .enum i => .enum (s.enumOrder[i]?.getD 0)
  | base => base

variable (s) in
def seatTitle (base : TypeBase) : String := s.baseName (s.origin base)

theorem item_at_index {items : List Nat} {a : Nat} (member : a ∈ items) :
    items[items.idxOf a]?.getD 0 = a := by
  rw [List.getElem?_eq_getElem (List.idxOf_lt_length_of_mem member), List.getElem_idxOf]
  rfl

theorem origin_seat {base : TypeBase} (member : base ∈ s.collected) : s.origin (s.seat base) = base := by
  rcases collected_cases member with ⟨id, own, rfl⟩ | ⟨id, own, rfl⟩
  all_goals rw [seat, origin, item_at_index own]

theorem title_of_seat {base : TypeBase} (member : base ∈ s.collected) :
    s.seatTitle (s.seat base) = s.baseName base := by
  rw [seatTitle, origin_seat member]

namespace Projects

variable (projects : final.Projects d) (retells : final.Retells g)

include projects

theorem member_name {e : EnumId} (member : e ∈ final.enumOrder) {v : EnumValue}
    (held : v ∈ (final.enum e).values) {t : StructId} (data : v.data = some t) :
    (final.struct t).name = (final.enum e).name ++ Text.capitalised v.text := by
  obtain ⟨tree, named, expanded, stages⟩ := projects.stages
  exact stages.member_name (treelike_of_tree tree) (projects.known_enum member) held data

include retells

theorem title_called {path : List String} {base : TypeBase} (called : g.Called path base)
    (nested : base.IsNested) : final.seatTitle base = Naming.nameOfPath path := by
  induction called with
  | error member =>
    rw [retells.errors] at member
    obtain ⟨e, _, rfl⟩ := List.mem_map.mp member
    exact absurd nested (not_nested_told _)
  | definition member =>
    rcases retells.exists_definition member with ⟨first, listed, rfl⟩ | ⟨entry, _, rfl⟩
    · change final.seatTitle (final.seat first) = Naming.nameOfPath [final.baseName first]
      rw [title_of_seat listed, name_of_single, (projects.capital listed).capitalised]
    · exact absurd nested (not_nested_read _)
  | argument member held =>
    obtain ⟨_, _, told⟩ := retells.exists_operation member
    rw [told.members] at held
    obtain ⟨_, _, first, _, same⟩ := retells.exists_arg member (held.resolve_left List.not_mem_nil)
    rw [same] at nested
    exact absurd nested (not_nested_told _)
  | returns member =>
    obtain ⟨_, _, told⟩ := retells.exists_operation member
    rw [told.returns] at nested
    exact absurd nested (not_nested_told _)
  | inside called nests ih =>
    have outer := ih nests.nests.nested
    cases nests with
    | field held =>
      obtain ⟨t, member, rfl⟩ := projects.seated_struct retells called.known
      obtain ⟨_, _, same⟩ := retells.exists_field member
        (held.resolve_left fun spread => retells.members_empty member spread)
      rw [same] at nested
      exact absurd nested (not_nested_told _)
    | value held data =>
      obtain ⟨e, member, rfl⟩ := projects.seated_enum retells called.known
      obtain ⟨v, written, rfl⟩ := retells.exists_value member held
      obtain ⟨t, own, rfl⟩ := Option.map_eq_some_iff.mp data
      have listed := mem_collected_struct.mpr (projects.data_listed member written own)
      rw [Naming.name_of_path_append, ← outer]
      change final.seatTitle (final.seat (.struct t)) =
        final.seatTitle (final.seat (.enum e)) ++ Text.capitalised v.text
      rw [title_of_seat listed, title_of_seat (mem_collected_enum.mpr member)]
      exact projects.member_name member written own

theorem titles : g.Titles final.seatTitle where
  apart base other known known' nested nested' same := by
    obtain ⟨first, listed, rfl⟩ := projects.seated retells known nested
    obtain ⟨second, listed', rfl⟩ := projects.seated retells known' nested'
    rw [title_of_seat listed, title_of_seat listed'] at same
    rw [List.inj_on_of_nodup_map projects.collected_names listed listed' same]
  called path base called nested := projects.title_called retells called nested
  taken base known nested := by
    obtain ⟨first, listed, rfl⟩ := projects.seated retells known nested
    rcases collected_cases listed with ⟨t, member, rfl⟩ | ⟨e, member, rfl⟩
    · have inside : final.structOrder.idxOf t < g.structs.size :=
        retells.structCount ▸ List.idxOf_lt_length_of_mem member
      simp only [seat, Naming.giveName, baseName, struct_setStruct, inside, and_self, if_true]
    · have inside : final.enumOrder.idxOf e < g.enums.size :=
        retells.enumCount ▸ List.idxOf_lt_length_of_mem member
      simp only [seat, Naming.giveName, baseName, enum_setEnum, inside, and_self, if_true]

end Projects

theorem Retells.retitled {g' : Schema} {title : TypeBase → String} (retells : s.Retells g)
    (retitles : g.Retitles title g') : s.Retells g' := by
  have fields : g'.field = g.field := funext retitles.field
  have definitions : g'.definitions = g.definitions := by rw [retitles.rest]
  have errors : g'.errors = g.errors := by rw [retitles.rest]
  have operations : g'.operations = g.operations := by rw [retitles.rest]
  constructor
  · exact retitles.structCount.trans retells.structCount
  · exact retitles.enumCount.trans retells.enumCount
  · intro t member
    rw [retitles.members, retells.members t member]
  · intro t member
    rw [retitles.fields, fields, retells.fields t member]
  · intro e member
    rw [retitles.values, retells.values e member]
  · exact definitions.trans retells.definitions
  · rw [operations]
    exact retells.operations.imp fun o o' told =>
      ⟨told.name, told.members, by rw [fields]; exact told.args, told.returns, told.notes⟩
  · exact errors.trans retells.errors

/-- A schema that is what another one is loaded as, with the names that its structs and enums had. -/
structure Recalls (s g : Schema) : Prop extends s.Retells g where
  names : ∀ base ∈ s.collected, g.baseName (s.seat base) = s.baseName base

theorem Projects.named (projects : final.Projects d) (retells : final.Retells g) (plain : g.PlainFields) :
    ∃ g', g.nameTypes = .ok g' ∧ final.Recalls g' ∧ g'.PlainFields := by
  obtain ⟨g', named, retitles, titled⟩ := name_types_titled plain.grounded (projects.titles retells)
  refine ⟨g', named, { retells.retitled retitles with names := fun base member => ?_ }, fun id => ?_⟩
  · have defined : final.seatDefinition base ∈ g.definitions := by
      rw [retells.definitions]
      exact List.mem_append_left _ (List.mem_map_of_mem member)
    exact (titled _ defined (seat_nested member)).trans (title_of_seat member)
  · rw [retitles.field]
    exact plain id

end Titles

section Definitions

variable (s) in
/-- The type of a definition as it is loaded: a struct or an enum is a definition's own. -/
def reseated (t : TypeUse) : TypeUse := if t.isNested then .ofBase (s.seat t.base) else s.retold t

theorem definition_of_member (distinct : (s.definitions.map (·.name)).Nodup) {a : Definition}
    (member : a ∈ s.definitions) : s.definition? a.name = some a := by
  cases found : s.definition? a.name with
  | none => simpa using List.find?_eq_none.mp found a member
  | some b =>
    obtain ⟨listed, same⟩ := name_of_definition found
    rw [List.inj_on_of_nodup_map distinct listed member same]

namespace Projects

variable (projects : final.Projects d)

include projects

theorem definition_name {a : Definition} (member : a ∈ final.definitions) (nested : a.type.base.IsNested) :
    a.type.base ∈ final.collected ∧ final.baseName a.type.base = a.name := by
  obtain ⟨files, file, source, tree, parsed, accepted⟩ := projects.compiles.accepted
  obtain ⟨named, expanded, stages⟩ := accepted_of_analyse accepted
  have treelike := treelike_of_tree tree
  refine ⟨stages.collects (known_of_declares (.definition member)) nested, ?_⟩
  obtain ⟨first, written, same⟩ := stages.exists_written treelike member
  have capital := capital_of_parse parsed first written
  rw [same] at capital
  have names := well_named_of_name_types treelike.add_fatal stages.names
  rw [stages.definitions] at member
  rw [stages.base_name, names.own member nested, name_of_single, Text.capitalised_of_capital capital]

theorem alias_plain {a : Definition} (member : a ∈ final.aliases) : ¬ a.type.base.IsNested := by
  intro nested
  obtain ⟨listed, same⟩ := projects.definition_name (List.mem_of_mem_filter member) nested
  exact projects.unclashed _ listed ⟨a, member, same.symm⟩

theorem same_text {a b : Definition} (member : a ∈ final.aliases) (member' : b ∈ final.definitions)
    (same : a.name = b.name) : b ∈ final.aliases ∧ final.typeName a.type = final.typeName b.type := by
  obtain ⟨tree, named, expanded, stages⟩ := projects.stages
  have texts := stages.type_name_of_name (treelike_of_tree tree) (List.mem_of_mem_filter member) member' same
  refine ⟨List.mem_filter.mpr ⟨member', ?_⟩, texts⟩
  cases nested : b.type.isNested with
  | false => rfl
  | true =>
    obtain ⟨listed, own⟩ := projects.definition_name member' (is_nested_iff.mp nested).2
    exact absurd ⟨a, member, same.trans own.symm⟩ (projects.unclashed _ listed)

theorem alias_text_listed {a : Definition} (member : a ∈ final.aliases) :
    (a.name, final.typeName a.type) ∈ final.aliasTexts := by
  have key : a.name ∈ (Table.keys final.aliasTexts) := by
    rw [aliasTexts, Table.keys_ofEntries, List.mem_eraseDups, List.map_map]
    exact List.mem_map_of_mem (f := fun a : Definition => a.name) member
  obtain ⟨⟨name, text⟩, listed, same⟩ := List.mem_map.mp key
  obtain ⟨b, written, own⟩ := List.mem_map.mp (Table.mem_of_mem_ofEntries listed)
  cases own
  obtain ⟨_, texts⟩ := projects.same_text member (List.mem_of_mem_filter written) same.symm
  rw [texts, ← same]
  exact listed

variable (retells : final.Retells g)

include retells

theorem definitions_distinct : (g.definitions.map (·.name)).Nodup := by
  rw [retells.definitions, List.map_append, List.map_map, List.map_map]
  refine List.nodup_append.mpr ⟨projects.collected_names, Table.ofEntries_distinct _, ?_⟩
  intro name seated other written same
  obtain ⟨base, listed, rfl⟩ := List.mem_map.mp seated
  obtain ⟨entry, own, rfl⟩ := List.mem_map.mp written
  obtain ⟨a, member, rfl⟩ := List.mem_map.mp (Table.mem_of_mem_ofEntries own)
  exact projects.unclashed base listed ⟨a, member, same.symm⟩

theorem seat_defined {base : TypeBase} (member : base ∈ final.collected) :
    g.definition? (final.baseName base) = some (final.seatDefinition base) := by
  refine definition_of_member (a := final.seatDefinition base) (projects.definitions_distinct retells) ?_
  rw [retells.definitions]
  exact List.mem_append_left _ (List.mem_map_of_mem member)

theorem alias_defined {a : Definition} (member : a ∈ final.aliases) :
    g.definition? a.name = some ⟨a.name, final.retold a.type, [], {}⟩ := by
  have found := definition_of_member (a := textDefinition (a.name, final.typeName a.type))
    (projects.definitions_distinct retells) (by
      rw [retells.definitions]
      exact List.mem_append_right _ (List.mem_map_of_mem (projects.alias_text_listed member)))
  rwa [textDefinition, projects.read_stated (.definition (List.mem_of_mem_filter member))] at found

theorem definition_told {name : String} {a : Definition} (found : final.definition? name = some a) :
    ∃ a', g.definition? name = some a' ∧ a'.type = final.reseated a.type := by
  obtain ⟨member, rfl⟩ := name_of_definition found
  cases nested : a.type.isNested with
  | false =>
    refine ⟨_, projects.alias_defined retells (List.mem_filter.mpr ⟨member, by rw [nested]; rfl⟩), ?_⟩
    rw [reseated, nested]
    rfl
  | true =>
    obtain ⟨listed, own⟩ := projects.definition_name member (is_nested_iff.mp nested).2
    refine ⟨_, own ▸ projects.seat_defined retells listed, ?_⟩
    rw [reseated, nested]
    rfl

theorem definition_cases {name : String} {a : Definition} (found : g.definition? name = some a) :
    (∃ base ∈ final.collected, final.baseName base = name ∧ a = final.seatDefinition base) ∨
      ∃ b ∈ final.aliases, final.definition? name = some b ∧ a = ⟨name, final.retold b.type, [], {}⟩ := by
  obtain ⟨member, rfl⟩ := name_of_definition found
  rcases retells.exists_definition member with ⟨base, listed, rfl⟩ | ⟨entry, written, rfl⟩
  · exact .inl ⟨base, listed, rfl, rfl⟩
  · obtain ⟨first, listed, rfl⟩ := List.mem_map.mp (Table.mem_of_mem_ofEntries written)
    have defined : ∃ b, final.definition? first.name = some b := by
      cases found : final.definition? first.name with
      | none => simpa using List.find?_eq_none.mp found first (List.mem_of_mem_filter listed)
      | some b => exact ⟨b, rfl⟩
    obtain ⟨b, defined⟩ := defined
    obtain ⟨member', same⟩ := name_of_definition defined
    obtain ⟨own, texts⟩ := projects.same_text listed member' same.symm
    refine .inr ⟨b, own, defined, ?_⟩
    rw [textDefinition, texts, projects.read_stated (.definition member')]

theorem bound : g.Bound := by
  intro name location known
  rcases projects.known_cases retells known with ⟨base, listed, same⟩ | ⟨t, stated, same⟩
  · rcases collected_cases listed with ⟨t, _, rfl⟩ | ⟨e, _, rfl⟩ <;> cases same
  · have known := stated.known
    have named : final.baseName t.base = name := by
      have names := g.base_name_base_of (final.baseName t.base)
      rw [told] at same
      rw [← same] at names
      exact names.symm
    cases shape : t.base with
    | primitive kind =>
      rw [shape, told, baseName, TypeText.base_of_primitive] at same
      cases same
    | struct | enum =>
      rw [shape] at known named
      obtain ⟨first, listed, found⟩ : ∃ first ∈ final.collected, final.baseName first = name := by
        first
          | exact ⟨_, mem_collected_struct.mpr (projects.listed_struct known), named⟩
          | exact ⟨_, mem_collected_enum.mpr (projects.listed_enum known), named⟩
      rw [← found, projects.seat_defined retells listed]
      rfl
    | reference other place =>
      rw [shape] at known named
      obtain ⟨tree, first, expanded, stages⟩ := projects.stages
      obtain ⟨a, defined⟩ := Option.isSome_iff_exists.mp
        (stages.bound (treelike_of_tree tree).grounded other place known)
      obtain ⟨a', found, _⟩ := projects.definition_told retells defined
      cases named
      change (g.definition? other).isSome = true
      rw [found]
      rfl

end Projects

end Definitions

section Checks

namespace Projects

variable (projects : final.Projects d) (retells : final.Retells g)

include projects

theorem struct_filled {t : StructId} (member : t ∈ final.structOrder) : (final.struct t).fields ≠ [] := by
  obtain ⟨tree, named, expanded, stages⟩ := projects.stages
  exact stages.has_fields (projects.known_struct member)

theorem enum_filled {e : EnumId} (member : e ∈ final.enumOrder) : (final.enum e).values ≠ [] := by
  obtain ⟨tree, named, expanded, stages⟩ := projects.stages
  exact stages.has_values (projects.known_enum member)

theorem values_distinct {e : EnumId} (member : e ∈ final.enumOrder) :
    ((final.enum e).values.map (·.text)).Nodup := by
  obtain ⟨tree, named, expanded, stages⟩ := projects.stages
  exact stages.distinct_values (projects.known_enum member)

theorem fatal : ∃ e ∈ final.errors, e.name = "Fatal" := by
  obtain ⟨tree, named, expanded, stages⟩ := projects.stages
  have kept := stages.add_fatal (treelike_of_tree tree).grounded
  rw [← kept]
  exact mem_add_fatal final

include retells

theorem fatal_again : g.addFatal = g := by
  obtain ⟨e, member, named⟩ := projects.fatal
  refine add_fatal_of_mem (e := final.retoldError e) ?_ named
  rw [retells.errors]
  exact List.mem_map_of_mem member

theorem redeclared : g.checkRedeclarations = .ok () := by
  refine check_redeclarations_ok.mpr fun a member b member' same => ?_
  rw [List.inj_on_of_nodup_map (projects.definitions_distinct retells) member member' same]
  exact ⟨rfl, rfl⟩

theorem spread : g.Spread where
  structs t known := by
    obtain ⟨first, member, rfl⟩ := projects.seated_struct retells known
    exact retells.members first member
  operations o member := by
    obtain ⟨_, _, told⟩ := retells.exists_operation member
    exact told.members

theorem secrets : g.checkSecrets = .ok () := by
  cases outcome : g.checkSecrets with
  | ok => rfl
  | error e =>
    obtain ⟨⟨o, member, t, id, way, held, secret⟩, _⟩ := check_secrets_error outcome
    obtain ⟨first, listed, rfl⟩ :=
      projects.seated_struct retells ((known_of_declares (.returns member)).reaches way)
    obtain ⟨_, _, same⟩ := retells.exists_field listed
      (held.resolve_left fun written => retells.members_empty listed written)
    rw [same] at secret
    cases secret

theorem emptiness (grounded : g.Grounded) : g.checkEmptiness = .ok () := by
  have filled : ∀ v ∈ g.walk.visits, g.Filled v := by
    intro v visited
    cases v with
    | struct t =>
      obtain ⟨first, member, rfl⟩ := projects.seated_struct retells
        (known_of_visits_struct ((mem_walk grounded).mp visited))
      intro empty
      have fields := retells.fields first member
      rw [empty, List.map_nil] at fields
      exact projects.struct_filled member (List.map_eq_nil_iff.mp fields.symm)
    | enum e =>
      obtain ⟨first, member, rfl⟩ := projects.seated_enum retells
        (known_of_visits_enum ((mem_walk grounded).mp visited))
      intro empty
      rw [retells.values first member] at empty
      exact projects.enum_filled member (List.map_eq_nil_iff.mp empty)
    | _ => trivial
  simp only [checkEmptiness, check_not_empty_ok.mpr filled, walk_ends.mpr grounded]
  rfl

theorem repetition (grounded : g.Grounded) : g.checkRepetition = .ok () := by
  refine check_repeated_ok.mpr fun e visited => ?_
  obtain ⟨first, member, rfl⟩ := projects.seated_enum retells
    (known_of_visits_enum ((mem_walk grounded).mp visited))
  rw [retells.values first member, List.map_map]
  exact projects.values_distinct member

end Projects

end Checks

end ApiSchema.Schema
