import ApiSchema.Document.Reader
import ApiSchema.Proofs.Document.Resolving

/-! Documents that have been read, and the schemas that they are loaded as. The table of types may
have its entries in any order: the structs among them are numbered one after another, and so are the
enums. No struct has members, and each text is that of a type behind some declaration. -/

namespace ApiSchema

namespace Document

structure Distinct (d : Document) : Prop where
  types : d.types.keys.Nodup
  fields : ∀ name fields, (name, .struct fields) ∈ d.types → (Table.keys fields).Nodup

def structEntry? (d : Document) (name : String) : Option (Table String) :=
  match d.types.get? name with
  | some (.struct fields) => some fields
  | _ => none

theorem mem_of_struct_entry {d : Document} {name : String} {fields : Table String}
    (entry : d.structEntry? name = some fields) : (name, .struct fields) ∈ d.types := by
  unfold structEntry? at entry
  split at entry
  · next others found =>
    cases entry
    exact Table.mem_of_get? found
  · cases entry

/-- The texts of a document that stand for types. -/
inductive Says (d : Document) : String → Prop where
  | written {text} (writes : d.Writes text) : Says d text
  | error {name text} (member : (name, some text) ∈ d.errors) : Says d text

section Reading

variable {α : Type} {read : Value → Option α}

theorem mem_of_map {β : Type} {f : β → Option α} {items : List β} {results : List α}
    (mapped : items.mapM f = some results) {a : α} (member : a ∈ results) :
    ∃ b ∈ items, f b = some a := by
  induction items generalizing results with
  | nil =>
    cases mapped
    cases member
  | cons b rest ih =>
    rw [List.mapM_cons] at mapped
    obtain ⟨first, here, later⟩ := Option.bind_eq_some_iff.mp mapped
    obtain ⟨others, there, same⟩ := Option.bind_eq_some_iff.mp later
    cases same
    rcases List.mem_cons.mp member with rfl | member
    · exact ⟨b, List.mem_cons_self .., here⟩
    · obtain ⟨c, listed, found⟩ := ih there member
      exact ⟨c, List.mem_cons_of_mem _ listed, found⟩

theorem table_of_read {value : Value} {table : Table α} (found : readTable? read value = some table) :
    table.keys.Nodup ∧ ∀ entry ∈ table, ∃ item, read item = some entry.2 := by
  unfold readTable? at found
  split at found
  · obtain ⟨entries, mapped, same⟩ := Option.bind_eq_some_iff.mp found
    cases same
    refine ⟨Table.ofEntries_distinct _, fun entry member => ?_⟩
    obtain ⟨⟨key, item⟩, _, each⟩ := mem_of_map mapped (Table.mem_of_mem_ofEntries member)
    obtain ⟨name, _, each⟩ := Option.bind_eq_some_iff.mp each
    obtain ⟨a, here, same⟩ := Option.bind_eq_some_iff.mp each
    cases same
    exact ⟨item, here⟩
  · cases found

theorem fields_of_read {value : Value} {fields : Table String}
    (found : readDescription? value = some (.struct fields)) : fields.keys.Nodup := by
  unfold readDescription? at found
  split at found
  · obtain ⟨table, read, same⟩ := Option.map_eq_some_iff.mp found
    cases same
    exact (table_of_read read).1
  · split at found
    · cases found
    · obtain ⟨_, _, same⟩ := Option.map_eq_some_iff.mp found
      cases same

theorem args_of_signature {value : Value} {signature : Signature}
    (found : readSignature? value = some signature) : signature.args.keys.Nodup := by
  unfold readSignature? at found
  obtain ⟨members, _, found⟩ := Option.bind_eq_some_iff.mp found
  split at found
  · obtain ⟨args, read, found⟩ := Option.bind_eq_some_iff.mp found
    obtain ⟨returns, _, same⟩ := Option.bind_eq_some_iff.mp found
    cases same
    exact (table_of_read read).1
  · cases found

theorem distinct_of_read {value : Value} {d : Document} (found : ofValue? value = some d) :
    d.Distinct := by
  unfold ofValue? at found
  obtain ⟨members, _, found⟩ := Option.bind_eq_some_iff.mp found
  split at found
  · next notes errors operations types _ =>
    obtain ⟨_, _, found⟩ := Option.bind_eq_some_iff.mp found
    obtain ⟨_, _, found⟩ := Option.bind_eq_some_iff.mp found
    obtain ⟨_, _, found⟩ := Option.bind_eq_some_iff.mp found
    obtain ⟨table, read, same⟩ := Option.bind_eq_some_iff.mp found
    cases same
    cases types with
    | none =>
      cases read
      exact ⟨List.nodup_nil, nofun⟩
    | some types =>
      obtain ⟨distinct, each⟩ := table_of_read read
      refine ⟨distinct, fun name fields member => ?_⟩
      obtain ⟨item, description⟩ := each _ member
      exact fields_of_read description
  · cases found

theorem args_of_read {value : Value} {d : Document} (found : ofValue? value = some d) :
    ∀ entry ∈ d.operations, entry.2.args.keys.Nodup := by
  unfold ofValue? at found
  obtain ⟨members, _, found⟩ := Option.bind_eq_some_iff.mp found
  split at found
  · next notes errors operations types _ =>
    obtain ⟨_, _, found⟩ := Option.bind_eq_some_iff.mp found
    obtain ⟨_, _, found⟩ := Option.bind_eq_some_iff.mp found
    obtain ⟨table, read, found⟩ := Option.bind_eq_some_iff.mp found
    obtain ⟨_, _, same⟩ := Option.bind_eq_some_iff.mp found
    cases same
    cases operations with
    | none =>
      cases read
      exact nofun
    | some operations =>
      intro entry member
      obtain ⟨item, signature⟩ := (table_of_read read).2 entry member
      exact args_of_signature signature
  · cases found

end Reading

end Document

namespace Schema

variable {d : Document} {s s' : Schema}

/-- What an entry of the table of types is loaded as. -/
inductive DefinitionAt (d : Document) (s : Schema) : String × TypeDescription → Definition → Prop where
  | text {name text} : DefinitionAt d s (name, .text text) (textDefinition (name, text))
  | enum {name members e} (held : EnumAt d "" s e (name, members)) :
    DefinitionAt d s (name, .enum members) (enumDefinition ((name, members), e))
  | struct {name fields t} (held : StructAt d "" s t (name, fields))
    (number : (structNumbers d.types).get? name = some t) :
    DefinitionAt d s (name, .struct fields) (structDefinition ((name, fields), t))

theorem DefinitionAt.later {entry : String × TypeDescription} {definition : Definition}
    (loaded : DefinitionAt d s entry definition) (extended : s.Extends s') :
    DefinitionAt d s' entry definition := by
  cases loaded with
  | text => exact .text
  | enum held => exact .enum (held.later extended)
  | struct held number => exact .struct (held.later extended) number

theorem DefinitionAt.name {entry : String × TypeDescription} {definition : Definition}
    (loaded : DefinitionAt d s entry definition) : entry.1 = definition.name := by
  cases loaded <;> rfl

section Numbers

theorem lookup_zip {name : String} {before after : List String} (fresh : name ∉ before) :
    ∀ first, ((before ++ name :: after).zip
      (List.range' first (before ++ name :: after).length)).lookup name =
        some (first + before.length) := by
  induction before with
  | nil => intro first; simp [List.range'_succ]
  | cons other rest ih =>
    intro first
    obtain ⟨different, fresh⟩ : name ≠ other ∧ name ∉ rest := by simpa using fresh
    have away : (name == other) = false := by simpa using different
    simp only [List.cons_append, List.length_cons, List.range'_succ, List.zip_cons_cons,
      List.lookup_cons, away]
    rw [ih fresh (first + 1)]
    congr 1
    omega

theorem mem_struct_names {types : Table TypeDescription} {name : String} :
    name ∈ structNames types ↔ ∃ fields, (name, .struct fields) ∈ types := by
  simp only [structNames, List.mem_filterMap]
  constructor
  · rintro ⟨⟨key, type⟩, member, named⟩
    cases type with
    | struct fields =>
      cases named
      exact ⟨fields, member⟩
    | _ => cases named
  · rintro ⟨fields, member⟩
    exact ⟨_, member, rfl⟩

/-- A struct has as its number how many structs stand before it. -/
theorem number_of_struct {before after : Table TypeDescription} {name : String}
    {fields : Table String} (split : d.types = before ++ (name, .struct fields) :: after)
    (distinct : d.types.keys.Nodup) :
    (structNumbers d.types).get? name = some (structNames before).length := by
  have names : structNames d.types = structNames before ++ name :: structNames after := by
    rw [split, structNames, List.filterMap_append]
    rfl
  have fresh : name ∉ structNames before := by
    intro member
    obtain ⟨others, present⟩ := mem_struct_names.mp member
    rw [split, Table.keys, List.map_append] at distinct
    exact (List.nodup_append.mp distinct).2.2 name (List.mem_map_of_mem present) name
      (List.mem_cons_self ..) rfl
  rw [structNumbers, names, List.range_eq_range']
  exact (lookup_zip fresh 0).trans (congrArg some (Nat.zero_add _))

theorem number_of_none {name : String} (absent : d.structEntry? name = none)
    (distinct : d.types.keys.Nodup) : (structNumbers d.types).get? name = none := by
  cases found : (structNumbers d.types).get? name with
  | none => rfl
  | some t =>
    have listed := (List.of_mem_zip (Table.mem_of_get? found)).1
    obtain ⟨fields, member⟩ := mem_struct_names.mp listed
    rw [Document.structEntry?, Table.get?_of_mem distinct member] at absent
    cases absent

end Numbers

theorem load_definitions (distinct : d.types.keys.Nodup) {rest : Table TypeDescription} :
    ∀ {before s}, d.types = before ++ rest → s.structs.size = (structNames before).length →
      ∃ definitions s', rest.mapM (describedDefinition d) s = (definitions, s') ∧ s.Extends s' ∧
        List.Forall₂ (DefinitionAt d s') rest definitions := by
  induction rest with
  | nil => exact fun _ _ => ⟨[], _, rfl, .refl _, .nil⟩
  | cons entry rest ih =>
    intro before s split counted
    obtain ⟨name, type⟩ := entry
    have split' : d.types = (before ++ [(name, type)]) ++ rest := by simpa using split
    -- How the entry is loaded, and how many structs there are behind it.
    obtain ⟨definition, s₁, first, grown, loaded, counted'⟩ : ∃ definition s₁,
        describedDefinition d (name, type) s = (definition, s₁) ∧ s.Extends s₁ ∧
          DefinitionAt d s₁ (name, type) definition ∧
            s₁.structs.size = (structNames (before ++ [(name, type)])).length := by
      rw [structNames, List.filterMap_append, List.length_append]
      cases type with
      | text text => exact ⟨_, s, rfl, .refl s, .text, counted⟩
      | enum members =>
        obtain ⟨s₁, run, grown, _, structs, held⟩ := load_enum (d := d) (name, members) s
        exact ⟨_, s₁, run, grown, .enum held, structs.trans counted⟩
      | struct fields =>
        obtain ⟨s₁, run, grown, structs, _, held⟩ := load_struct (d := d) (name, fields) s
        have number := (number_of_struct split distinct).trans (congrArg some counted.symm)
        exact ⟨_, s₁, run, grown, .struct held number, structs.trans (congrArg (· + 1) counted)⟩
    obtain ⟨definitions, s₂, others, extended, each⟩ := ih split' counted'
    refine ⟨definition :: definitions, s₂, ?_, grown.trans extended, .cons (loaded.later extended) each⟩
    have run : ((name, type) :: rest).mapM (describedDefinition d) s =
        (let r := describedDefinition d (name, type) s;
          let rs := rest.mapM (describedDefinition d) r.2; (r.1 :: rs.1, rs.2)) := by
      rw [List.mapM_cons]
      rfl
    rw [run, first]
    dsimp only
    rw [others]

/-- A schema with all that a document says. -/
structure Loads (d : Document) (s : Schema) : Prop where
  definitions : List.Forall₂ (DefinitionAt d s) d.types s.definitions
  operations : List.Forall₂ (OperationAt d s) d.operations s.operations
  errors : ∀ entry ∈ d.errors, describedError d entry ∈ s.errors
  plain : s.PlainFields

theorem loads_of_document (distinct : d.types.keys.Nodup) : Loads d (ofDocument d) := by
  obtain ⟨definitions, s₁, first, _, each⟩ :=
    load_definitions distinct (show d.types = [] ++ d.types from rfl)
      (show ({} : Schema).structs.size = 0 from rfl)
  obtain ⟨loaded, s₂, second, extended, _, _, each'⟩ := load_operations (d := d) d.operations s₁
  have plain := plain_fields_of_document d
  have whole : ofDocument d = (let r := d.types.mapM (describedDefinition d) {};
    let o := d.operations.mapM (describedEntry d) r.2;
    { o.2 with
      definitions := r.1
      operations := o.1
      errors := d.errors.map (describedError d) }) := rfl
  rw [whole, first] at plain ⊢
  dsimp only at plain ⊢
  rw [second] at plain ⊢
  exact ⟨each.imp fun entry definition held => held.later extended, each',
    fun entry member => List.mem_map_of_mem member, plain⟩

theorem Loads.add_fatal (loads : Loads d s) : Loads d s.addFatal := by
  unfold addFatal
  split
  · exact loads
  · have extended : s.Extends { s with errors := s.errors ++ [⟨"Fatal", .primitive .void, [], {}⟩] } :=
      fun x records => ⟨by cases x <;> exact records, by cases x <;> rfl⟩
    exact ⟨loads.definitions.imp fun entry definition held => held.later extended,
      loads.operations.imp fun entry operation held => held.later extended,
      fun entry member => List.mem_append_left _ (loads.errors entry member), loads.plain⟩

theorem Loads.numbers (loads : Loads d s) (distinct : d.Distinct) (name : String) :
    Option.Rel (fun t fields => StructAt d "" s t (name, fields) ∧ (Table.keys fields).Nodup)
      ((structNumbers d.types).get? name) (d.structEntry? name) := by
  cases entry : d.structEntry? name with
  | none =>
    rw [number_of_none entry distinct.types]
    exact .none
  | some fields =>
    have member := Document.mem_of_struct_entry entry
    obtain ⟨definition, _, loaded⟩ := exists_right loads.definitions member
    cases loaded with
    | struct held number =>
      rw [number]
      exact .some ⟨held, distinct.fields name fields member⟩

theorem Loads.known_of_says (loads : Loads d s) {text : String} (said : d.Says text) :
    s.Known (TypeText.read text).base := by
  have inside : ∀ {place ids} {fields : Table String} {key},
      s.FieldsAt ids (fields.map (textField d place)) → (key, text) ∈ fields →
        ∃ id ∈ ids, (s.field id).type = TypeText.read text := by
    intro place ids fields key held member
    have listed := List.mem_map_of_mem (f := textField d place) member
    rw [← held.2] at listed
    obtain ⟨id, present, same⟩ := List.mem_map.mp listed
    exact ⟨id, present, congrArg Field.type same⟩
  cases said with
  | written writes =>
    cases writes with
    | other found =>
      obtain ⟨definition, member, loaded⟩ := exists_right loads.definitions (Table.mem_of_get? found)
      cases loaded with
      | text => exact known_of_declares (.definition member)
    | field found written =>
      obtain ⟨definition, member, loaded⟩ := exists_right loads.definitions (Table.mem_of_get? found)
      cases loaded with
      | @struct _ _ t held _ =>
        obtain ⟨_, ids, same, fields⟩ := held
        obtain ⟨id, present, type⟩ := inside fields written
        have known : s.Known (.struct t) := known_of_declares (.definition member)
        have holds : s.Holds t id := .inr (same ▸ present)
        exact type ▸ known.reaches (.single (.field holds))
    | argument found written =>
      obtain ⟨o, member, ids, same, fields⟩ :=
        exists_right loads.operations (Table.mem_of_get? found)
      obtain ⟨id, present, type⟩ := inside fields written
      have held : id ∈ o.args := same ▸ present
      exact type ▸ known_of_declares (.argument member (.inr held))
    | returns found =>
      obtain ⟨o, member, ids, same, _⟩ := exists_right loads.operations (Table.mem_of_get? found)
      have known : s.Known o.returns.base := known_of_declares (.returns member)
      rwa [same] at known
  | error member => exact known_of_declares (.error (loads.errors _ member))

section Members

def Memberless (s : Schema) : Prop := ∀ t, (s.struct t).members = []

theorem Memberless.push (memberless : s.Memberless) {t : Struct} (none : t.members = []) :
    Memberless { s with structs := s.structs.push t } := by
  intro u
  rw [struct_push]
  split
  · exact none
  · exact memberless u

theorem Memberless.add_fatal (memberless : s.Memberless) : s.addFatal.Memberless := fun t => by
  rw [s.add_fatal_same_types.struct]
  exact memberless t

theorem load_fields_memberless (place : Option String) (fields : List (String × String)) (s : Schema)
    (memberless : s.Memberless) : (fields.mapM (addTextField d place) s).2.Memberless :=
  mapM_keeps (fun _ _ _ memberless => memberless) memberless

theorem load_definition_memberless (entry : String × TypeDescription) (s : Schema)
    (memberless : s.Memberless) : (describedDefinition d entry s).2.Memberless := by
  obtain ⟨name, type⟩ := entry
  cases type with
  | text type => exact memberless
  | enum members => exact memberless
  | struct fields => exact (load_fields_memberless _ fields s memberless).push rfl

theorem memberless_of_document (d : Document) : (ofDocument d).Memberless := by
  have start : Memberless {} := by
    intro t
    rw [struct_of_size_le (Nat.zero_le t)]
    rfl
  have types : (d.types.mapM (describedDefinition d) {}).2.Memberless :=
    mapM_keeps (fun entry _ => load_definition_memberless entry) start
  exact mapM_keeps (f := describedEntry d) (fun entry _ => load_fields_memberless _ entry.2.args) types

end Members

end Schema

end ApiSchema
