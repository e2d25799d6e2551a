import ApiSchema.Proofs.Analysis.Permutation
import ApiSchema.Proofs.Document.Entries

/-! The document of a schema whose definitions stand in another order: it has the same entries. -/

namespace ApiSchema

/-- Two documents that say the same, with what they say under names and places in any order. -/
structure Document.SameEntries (d d' : Document) : Prop where
  errors : d.errors = d'.errors
  operations : d.operations = d'.operations
  notes : ∀ place, d.notes.get? place = d'.notes.get? place
  types : ∀ name, d.types.get? name = d'.types.get? name

namespace Schema

theorem descriptions_plain (notes : List Note) :
    Note.descriptions (notes.map Note.plain) = Note.descriptions notes := by
  rw [Note.descriptions, List.filterMap_map]
  rfl

variable {g g' x x' : Schema}

namespace Parallel

section Fields

variable (both : Parallel g g' x x') {ids ids' : List FieldId}
  (fields : List.Forall₂ (g.FieldTwins g') ids ids')

include both fields

theorem field_texts : x.fieldTexts ids = x'.fieldTexts ids' := by
  refine congrArg Table.ofEntries (map_eq_of_forall fields fun id id' twins => ?_)
  rw [both.field, both.symm.field, twins.alike.name]
  rw [both.type_name ⟨twins.alike.suffixes, twins.base⟩]

theorem field_notes (place : String) : x.fieldNotes place ids = x'.fieldNotes place ids' := by
  refine congrArg List.flatten (map_eq_of_forall fields fun id id' twins => ?_)
  have same : Note.descriptions (g.field id).notes = Note.descriptions (g'.field id').notes := by
    rw [← descriptions_plain, twins.alike.notes, descriptions_plain]
  simp only [both.field, both.symm.field, twins.alike.name, same]

end Fields

section Entries

variable (both : Parallel g g' x x')

include both

theorem struct_entry {t t' : StructId} (twins : g.Twins g' (.struct t) (.struct t')) :
    x.structEntry t = x'.structEntry t' := by
  have name : (x.struct t).name = (x'.struct t').name := both.base_name twins
  rw [structEntry, structEntry, name, both.field_texts (both.fields twins)]

theorem struct_notes {t t' : StructId} (twins : g.Twins g' (.struct t) (.struct t')) :
    x.structNotes t = x'.structNotes t' := by
  have name : (x.struct t).name = (x'.struct t').name := both.base_name twins
  rw [structNotes, structNotes, name, both.field_notes (both.fields twins)]

theorem enum_entry {e e' : EnumId} (twins : g.Twins g' (.enum e) (.enum e')) :
    x.enumEntry e = x'.enumEntry e' := by
  have name : (x.enum e).name = (x'.enum e').name := both.base_name twins
  rw [enumEntry, enumEntry, name, both.enum, both.symm.enum, enumMembers, enumMembers]
  congr 2
  refine map_eq_of_forall twins.values fun v v' value => ?_
  have data : (v.data.map fun t => (x.struct t).name) = v'.data.map fun t => (x'.struct t).name := by
    obtain ⟨_, data, _⟩ := value
    cases v
    cases v'
    cases data with
    | none => rfl
    | some twins => exact congrArg some (both.base_name twins)
  rw [value.text, data]

theorem signatures : x.operations.map (fun o => (o.name, x.signature o)) =
    x'.operations.map fun o => (o.name, x'.signature o) := by
  refine map_eq_of_forall both.operations fun o o' twins => ?_
  rw [twins.name, signature, signature, both.field_texts twins.args, both.type_name twins.returns]

theorem operation_notes :
    x.operations.flatMap x.operationNotes = x'.operations.flatMap x'.operationNotes := by
  refine congrArg List.flatten (map_eq_of_forall both.operations fun o o' twins => ?_)
  rw [operationNotes, operationNotes, twins.name, both.field_notes twins.args, twins.notes]

theorem error_entries : x.errors.map x.errorEntry = x'.errors.map x'.errorEntry := by
  refine map_eq_of_forall both.errors fun e e' ⟨name, data, _⟩ => ?_
  rw [errorEntry, errorEntry, name, (both.type_alike data).is_primitive, both.type_name data]

theorem error_notes : x.errors.flatMap errorNotes = x'.errors.flatMap errorNotes := by
  refine congrArg List.flatten (map_eq_of_forall both.errors fun e e' ⟨name, _, notes⟩ => ?_)
  rw [errorNotes, errorNotes, name, notes]

end Entries

end Parallel

section Tables

variable {s s' final final' : Schema} (both : Parallel g g' x x') (stages : Accepted s g x final)
  (stages' : Accepted s' g' x' final')

include both stages stages'

theorem collected_twin {base : TypeBase} (member : base ∈ final.collected) :
    ∃ base' ∈ final'.collected, g.Twins g' base base' := by
  obtain ⟨known, nested⟩ := stages.collected_known member
  obtain ⟨base', known', twins⟩ := both.known (stages.expanded_known known)
  have found := mem_collected stages'.grounded known' (twins.alike.nested nested)
  exact ⟨base', stages'.final ▸ found, twins⟩

theorem struct_twin {t : StructId} (member : t ∈ final.structOrder) :
    ∃ t' ∈ final'.structOrder, g.Twins g' (.struct t) (.struct t') := by
  have found : .struct t ∈ final.collected := List.mem_append_left _ (List.mem_map_of_mem member)
  obtain ⟨_, found', twins⟩ := collected_twin both stages stages' found
  obtain ⟨t', rfl, _⟩ := twins.alike.struct
  exact ⟨t', by simpa [collected] using found', twins⟩

theorem enum_twin {e : EnumId} (member : e ∈ final.enumOrder) :
    ∃ e' ∈ final'.enumOrder, g.Twins g' (.enum e) (.enum e') := by
  have found : .enum e ∈ final.collected := List.mem_append_right _ (List.mem_map_of_mem member)
  obtain ⟨_, found', twins⟩ := collected_twin both stages stages' found
  obtain ⟨e', rfl, _⟩ := twins.alike.enum
  exact ⟨e', by simpa [collected] using found', twins⟩

theorem struct_notes_twin {t : StructId} (member : t ∈ final.structOrder) :
    ∃ t' ∈ final'.structOrder, final.structNotes t = final'.structNotes t' := by
  obtain ⟨t', member', twins⟩ := struct_twin both stages stages' member
  have same := both.struct_notes twins
  rw [stages.final, stages'.final] at *
  exact ⟨t', member', same⟩

theorem mem_collected_entries {entry : String × TypeDescription}
    (member : entry ∈ final.collectedEntries) : entry ∈ final'.collectedEntries := by
  rcases List.mem_append.mp member with struct | enum
  · obtain ⟨t, listed, rfl⟩ := List.mem_map.mp struct
    obtain ⟨t', listed', twins⟩ := struct_twin both stages stages' listed
    have same := both.struct_entry twins
    rw [stages.final, stages'.final] at *
    exact List.mem_append_left _ (List.mem_map.mpr ⟨t', listed', same.symm⟩)
  · obtain ⟨e, listed, rfl⟩ := List.mem_map.mp enum
    obtain ⟨e', listed', twins⟩ := enum_twin both stages stages' listed
    have same := both.enum_entry twins
    rw [stages.final, stages'.final] at *
    exact List.mem_append_right _ (List.mem_map.mpr ⟨e', listed', same.symm⟩)

theorem alias_twin {d : Definition} (member : d ∈ final.aliases) :
    ∃ d' ∈ final'.aliases, d'.name = d.name ∧ final'.typeName d'.type = final.typeName d.type := by
  obtain ⟨written, plain⟩ := List.mem_filter.mp member
  rw [stages.definitions] at written
  obtain ⟨d', written', alike, _⟩ := both.alike.left d written
  have name := both.type_name (Alike.definition_twins written written' alike)
  refine ⟨d', List.mem_filter.mpr ⟨stages'.definitions ▸ written', ?_⟩, alike.name.symm, ?_⟩
  · rwa [← alike.type.is_nested]
  · rw [stages.final, stages'.final]
    exact name.symm

end Tables

theorem alias_text {s named expanded final : Schema} (stages : Accepted s named expanded final)
    (treelike : s.Treelike) {d : Definition} (member : d ∈ final.aliases) :
    (final.aliases.reverse.find? (·.name == d.name)).map
        (fun d => TypeDescription.text (final.typeName d.type)) =
      some (.text (final.typeName d.type)) := by
  obtain ⟨last, listed, same, found⟩ := find_alias_some ⟨d, member, rfl⟩
  have texts := stages.type_name_of_name treelike (List.mem_of_mem_filter listed)
    (List.mem_of_mem_filter member) same
  rw [found, ← texts]
  rfl

section Places

theorem split_place {place place' name name' : String} (word : Lexer.IsName name)
    (word' : Lexer.IsName name') (same : place ++ "." ++ name = place' ++ "." ++ name') :
    place = place' ∧ name = name' := by
  have dotless : ∀ {text}, Lexer.IsName text → '.' ∉ text.toList := by
    intro text word member
    cases word '.' member
  have texts : place.toList ++ '.' :: name.toList = place'.toList ++ '.' :: name'.toList := by
    simpa using congrArg String.toList same
  suffices parts : place.toList = place'.toList ∧ name.toList = name'.toList from
    ⟨String.toList_inj.mp parts.1, String.toList_inj.mp parts.2⟩
  rcases List.append_eq_append_iff.mp texts with ⟨between, before, behind⟩ | ⟨between, before, behind⟩
  · cases between with
    | nil => simpa [eq_comm] using And.intro before behind
    | cons c rest =>
      have dot : '.' ∈ name.toList := by simp_all
      exact absurd dot (dotless word)
  · cases between with
    | nil => simpa [eq_comm] using And.intro before behind
    | cons c rest =>
      have dot : '.' ∈ name'.toList := by simp_all
      exact absurd dot (dotless word')

theorem flatMap_alone {α β : Type} {items : List α} {f : α → List β} {a : α} (distinct : items.Nodup)
    (member : a ∈ items) (alone : ∀ b ∈ items, f b ≠ [] → b = a) : items.flatMap f = f a := by
  obtain ⟨before, behind, rfl⟩ := List.append_of_mem member
  have parts := List.nodup_append.mp distinct
  have ahead : before.flatMap f = [] := by
    refine List.flatMap_eq_nil_iff.mpr fun b listed => ?_
    by_contra some
    have same := alone b (List.mem_append_left _ listed) some
    exact parts.2.2 b listed a (List.mem_cons_self ..) same
  have after : behind.flatMap f = [] := by
    refine List.flatMap_eq_nil_iff.mpr fun b listed => ?_
    by_contra some
    have same := alone b (List.mem_append_right _ (List.mem_cons_of_mem _ listed)) some
    exact (List.nodup_cons.mp parts.2.1).1 (same ▸ listed)
  rw [List.flatMap_append, List.flatMap_cons, ahead, after, List.nil_append, List.append_nil]

variable {s : Schema}

theorem place_of_struct_note {place : String} {t : StructId}
    (present : (s.structNotes t).filter (·.1 == place) ≠ []) :
    ∃ id, "type." ++ (s.struct t).name ++ "." ++ (s.field id).name = place := by
  obtain ⟨note, member⟩ := List.exists_mem_of_ne_nil _ present
  obtain ⟨listed, same⟩ := List.mem_filter.mp member
  obtain ⟨id, _, written⟩ := List.mem_flatMap.mp listed
  obtain ⟨text, _, rfl⟩ := List.mem_map.mp written
  exact ⟨id, beq_iff_eq.mp same⟩

theorem struct_notes_at (names : (s.collected.map s.baseName).Nodup)
    (words : ∀ id, Lexer.IsName (s.field id).name) {place : String} {t : StructId}
    (member : t ∈ s.structOrder) (present : (s.structNotes t).filter (·.1 == place) ≠ []) :
    (s.structOrder.flatMap s.structNotes).filter (·.1 == place) =
      (s.structNotes t).filter (·.1 == place) := by
  have distinct : (s.structOrder.map fun t => (s.struct t).name).Nodup := by
    rw [collected, List.map_append, List.map_map] at names
    exact (List.nodup_append.mp names).1
  rw [List.filter_flatMap]
  refine flatMap_alone (.of_map _ distinct) member fun u listed present' => ?_
  obtain ⟨id, written⟩ := place_of_struct_note present
  obtain ⟨id', written'⟩ := place_of_struct_note present'
  have places := split_place (words id') (words id) (written'.trans written.symm)
  exact List.inj_on_of_nodup_map distinct listed member (String.append_right_inj "type." |>.mp places.1)

end Places

section Documents

variable {s s' final final' : Schema} (both : Parallel g g' x x') (stages : Accepted s g x final)
  (stages' : Accepted s' g' x' final') (treelike : s.Treelike) (treelike' : s'.Treelike)

include both stages stages' treelike treelike'

theorem types_permuted (name : String) :
    (final.definitions.foldl final.addDefinitionEntry final.collectedEntries).get? name =
      (final'.definitions.foldl final'.addDefinitionEntry final'.collectedEntries).get? name := by
  have collected : final.collectedEntries.get? name = final'.collectedEntries.get? name := by
    refine Table.get?_congr ?_ ?_ (fun entry => ⟨?_, ?_⟩) name
    · exact final.collected_entries_keys ▸ stages.collected_names treelike
    · exact final'.collected_entries_keys ▸ stages'.collected_names treelike'
    · exact mem_collected_entries both stages stages'
    · exact mem_collected_entries both.symm stages' stages
  rw [get_add_definitions, get_add_definitions, collected]
  by_cases taken : final.IsAlias name
  · obtain ⟨d, member, rfl⟩ := taken
    obtain ⟨d', member', same, text⟩ := alias_twin both stages stages' member
    have theirs := alias_text stages' treelike' member'
    rw [same, text] at theirs
    rw [alias_text stages treelike member, theirs]
  · have free : ¬ final'.IsAlias name := by
      rintro ⟨d', member', rfl⟩
      obtain ⟨d, member, same, _⟩ := alias_twin both.symm stages' stages member'
      exact taken ⟨d, member, same⟩
    rw [find_alias_none taken, find_alias_none free]
    rfl

theorem struct_notes_permuted (words : ∀ id, Lexer.IsName (final.field id).name)
    (words' : ∀ id, Lexer.IsName (final'.field id).name) (place : String) :
    (final.structOrder.flatMap final.structNotes).filter (·.1 == place) =
      (final'.structOrder.flatMap final'.structNotes).filter (·.1 == place) := by
  by_cases some : ∃ t ∈ final.structOrder, (final.structNotes t).filter (·.1 == place) ≠ []
  · obtain ⟨t, member, present⟩ := some
    obtain ⟨t', member', same⟩ := struct_notes_twin both stages stages' member
    rw [struct_notes_at (stages.collected_names treelike) words member present,
      struct_notes_at (stages'.collected_names treelike') words' member' (same ▸ present), same]
  · have none : ∀ t ∈ final.structOrder, (final.structNotes t).filter (·.1 == place) = [] := by
      simpa only [not_exists, not_and, not_not] using some
    have none' : ∀ t' ∈ final'.structOrder, (final'.structNotes t').filter (·.1 == place) = [] := by
      intro t' member'
      obtain ⟨t, member, same⟩ := struct_notes_twin both.symm stages' stages member'
      rw [same]
      exact none t member
    rw [List.filter_flatMap, List.filter_flatMap, List.flatMap_eq_nil_iff.mpr none,
      List.flatMap_eq_nil_iff.mpr none']

theorem notes_permuted (words : ∀ id, Lexer.IsName (final.field id).name)
    (words' : ∀ id, Lexer.IsName (final'.field id).name) (place : String) :
    final.placedNotes.filter (·.1 == place) = final'.placedNotes.filter (·.1 == place) := by
  have operations := both.operation_notes
  have errors := both.error_notes
  have structs := struct_notes_permuted both stages stages' treelike treelike' words words' place
  simp only [placedNotes, List.filter_append, structs]
  rw [stages.final, stages'.final]
  congr 1
  · exact congrArg _ (congrArg _ operations)
  · exact congrArg _ errors

theorem documents_permuted (words : ∀ id, Lexer.IsName (final.field id).name)
    (words' : ∀ id, Lexer.IsName (final'.field id).name) :
    ∃ d d', final.document = .ok d ∧ final'.document = .ok d' ∧ d.SameEntries d' := by
  refine ⟨_, _, by rw [document, type_entries_eq (stages.collected_names treelike)]; rfl,
    by rw [document, type_entries_eq (stages'.collected_names treelike')]; rfl, ?_, ?_, ?_, ?_⟩
  · rw [stages.final, stages'.final]
    exact both.error_entries
  · rw [stages.final, stages'.final]
    exact congrArg Table.ofEntries both.signatures
  · intro place
    have same := notes_permuted both stages stages' treelike treelike' words words' place
    rw [Table.get?_foldl_append, Table.get?_foldl_append, same]
  · exact types_permuted both stages stages' treelike treelike'

end Documents

theorem Accepted.words {s named expanded final : Schema} (stages : Accepted s named expanded final)
    (treelike : s.Treelike) (words : ∀ id, Lexer.IsName (s.field id).name) :
    ∀ id, Lexer.IsName (final.field id).name := by
  intro id
  have renamed := names_of_name_types treelike.add_fatal.grounded stages.names
  rw [stages.field, ← (renamed.revises.field id).name, s.add_fatal_field]
  exact words id

/-- If a source is accepted with its definitions in one order, it is so in every other one and its
document has the same entries, unless a spread is refused as cyclic; then some struct of the source
is to be expanded inside of itself. -/
theorem definitions_permuted {files : FileTree} {file source : String} {tree : SchemaTree}
    {final : Schema} (parsed : SchemaTree.parse files file source = .ok tree)
    {definitions definitions' : List Definition} (perm : definitions.Perm (ofTree tree).definitions)
    (perm' : definitions'.Perm (ofTree tree).definitions)
    (accepted : analyse { ofTree tree with definitions } = .ok final) :
    (∃ final' d d', analyse { ofTree tree with definitions := definitions' } = .ok final' ∧
      final.document = .ok d ∧ final'.document = .ok d' ∧ d.SameEntries d') ∨
      ∃ name location declared t, analyse { ofTree tree with definitions := definitions' } =
          .error (.semantic (.cyclicSpread name location)) ∧
        Schema.declared { ofTree tree with definitions } = .ok declared ∧
          Relation.TransGen declared.Absorbs t t := by
  obtain ⟨named, expanded, stages⟩ := accepted_of_analyse accepted
  have treelike := (treelike_of_tree tree).permuted perm
  have treelike' := (treelike_of_tree tree).permuted perm'
  have names := (holds_bare_of_tree (SchemaTree.bare_of_parse parsed)).names
  rcases stages.permuted treelike (perm'.trans perm.symm) with
    ⟨named', expanded', final', accepted', stages', both⟩ | ⟨name, location, refused, t, cycle⟩
  · obtain ⟨d, d', written, written', same⟩ := documents_permuted both stages stages' treelike
      treelike' (stages.words treelike names) (stages'.words treelike' names)
    exact .inl ⟨final', d, d', accepted', written, written', same⟩
  · have declared : Schema.declared { ofTree tree with definitions } = .ok named := by
      simp only [Schema.declared, stages.redeclared, stages.names, stages.references, bind, Except.bind]
      rfl
    exact .inr ⟨name, location, named, t, refused, declared, cycle⟩

def trips : String :=
  "type Trip \x7b ...Place, stops: \x7b ...Place, at: datetime \x7d[] \x7d\n" ++
    "type Place \x7b city: string \x7d\n" ++
    "fn plan(trip: Trip): Trip"

theorem trips_permuted : ∃ tree final final' d d',
    SchemaTree.parse ⟨[], []⟩ "-" trips = .ok tree ∧ (ofTree tree).analyse = .ok final ∧
      analyse { ofTree tree with definitions := (ofTree tree).definitions.reverse } = .ok final' ∧
        final.document = .ok d ∧ final'.document = .ok d' ∧ d.SameEntries d' := by
  have compiles : ((SchemaTree.parse ⟨[], []⟩ "-" trips).toOption.map fun tree =>
      ((ofTree tree).analyse.isOk, (analyse
        { ofTree tree with definitions := (ofTree tree).definitions.reverse }).isOk)) =
          some (true, true) := by
    simp only [SchemaTree.parse_by_chars]
    decide +kernel
  cases parsed : SchemaTree.parse ⟨[], []⟩ "-" trips with
  | error e => rw [parsed] at compiles; cases compiles
  | ok tree =>
    rw [parsed] at compiles
    have both := Prod.mk.inj (Option.some.inj compiles)
    obtain ⟨final, accepted⟩ := exists_of_is_ok both.1
    rcases definitions_permuted parsed (.refl _) (List.reverse_perm _) accepted with
      ⟨final', d, d', accepted', written, written', same⟩ | ⟨name, location, _, _, refused, _⟩
    · exact ⟨tree, final, final', d, d', rfl, accepted, accepted', written, written', same⟩
    · have accepted' := both.2
      rw [refused] at accepted'
      cases accepted'

/-- The inline type of `A` has the name of the type beside it. -/
def entwined : String :=
  "type AB \x7b ...A, b: int \x7d\n" ++
    "type A \x7b b: \x7b ...A, b: int \x7d \x7d"

/-- The types are accepted as they are written, and refused in the other order. -/
theorem entwined_refused :
    ((SchemaTree.parse ⟨[], []⟩ "-" entwined).toOption.map fun tree =>
      ((ofTree tree).analyse.isOk, analyse
        { ofTree tree with definitions := (ofTree tree).definitions.reverse })) =
          some (true, .error (.semantic (.cyclicSpread "A" ⟨"-", 2, 15⟩))) := by
  simp only [SchemaTree.parse_by_chars]
  decide +kernel

end Schema

end ApiSchema
