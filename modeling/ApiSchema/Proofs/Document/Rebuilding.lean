import ApiSchema.Artifact
import ApiSchema.Proofs.Analysis.Expansion
import ApiSchema.Proofs.Document.Describing
import ApiSchema.Proofs.Document.Loading

/-! Documents that are loaded and analysed. Each type that such a document names is primitive or has
an entry, and a member of an enum keeps its data exactly if there is a struct of its name. -/

namespace ApiSchema

namespace Document

/-- A text is that of a primitive type or the name of an entry, with any suffixes behind it. -/
inductive Denotes (d : Document) : String → Prop where
  | primitive (kind : Primitive) : Denotes d kind.name
  | entry {name type} (plain : TypeText.peel? name = none) (found : d.types.get? name = some type) :
    Denotes d name
  | suffix {text} (suffix : Suffix) (denotes : Denotes d text) : Denotes d (text ++ suffix.text)

theorem Denotes.suffixes {d : Document} {name : String} (denotes : d.Denotes name)
    (suffixes : List Suffix) :
    d.Denotes (suffixes.foldr (fun suffix text => text ++ suffix.text) name) := by
  induction suffixes with
  | nil => exact denotes
  | cons suffix rest ih => exact .suffix suffix ih

/-- A member of an enum, and what is written of it in another document: it has data if there is a
struct of the name, and with the fields of the struct unless its own name has been taken. -/
structure Keeps (d d' : Document) (taken : String → Prop) (member member' : String × Option String) :
    Prop where
  text : member'.1 = member.1
  carried : member'.2.isSome = (member.2.bind d.structEntry?).isSome
  fields : (∀ name, member'.2 = some name → ¬ taken name) →
    member'.2.bind d'.structEntry? = member.2.bind d.structEntry?

end Document

namespace Schema

variable {d : Document} {s final : Schema}

/-- A value of an enum, and the member that it was loaded from: its data has the fields of the
struct that was named. -/
structure Restores (d : Document) (s : Schema) (member : String × Option String) (v : EnumValue) :
    Prop where
  text : v.text = member.1
  fields : v.data.map (fun t => s.fieldTexts (s.struct t).fields) = member.2.bind d.structEntry?

theorem Resembles.base_name {s' : Schema} {base base' : TypeBase} (alike : s.Resembles s' base base')
    (plain : ¬ base.IsNested) : s'.baseName base' = s.baseName base := by
  cases base with
  | primitive kind =>
    cases alike.primitive
    rfl
  | reference name location =>
    obtain ⟨location', rfl⟩ := alike.reference
    rfl
  | struct | enum => exact absurd trivial plain

theorem FieldResembles.text {s' : Schema} {f f' : Field} (alike : s.FieldResembles s' f f')
    (plain : ¬ f.type.base.IsNested) :
    (f'.name, s'.typeName f'.type) = (f.name, s.typeName f.type) := by
  rw [alike.name, typeName, typeName, alike.suffixes, alike.base.base_name plain]

section Loaded

variable (loads : Loads d s) (names : s.Names final)

include loads

theorem Loads.texts_of_struct {name : String} {fields : Table String} {t t' : StructId}
    (held : StructAt d "" s t (name, fields)) (distinct : fields.keys.Nodup)
    (alike : s.Resembles final (.struct t) (.struct t')) :
    final.fieldTexts (final.struct t').fields = fields := by
  obtain ⟨_, ids, same, _, written⟩ := held
  obtain ⟨_, equal, _, each⟩ := alike.struct
  cases equal
  rw [same] at each
  have texts : (final.struct t').fields.map final.fieldText = fields :=
    calc (final.struct t').fields.map final.fieldText
      _ = ids.map s.fieldText := (map_eq_of_forall each fun id id' alike =>
          (alike.text (loads.plain id)).symm).symm
      _ = (ids.map s.field).map fun f => (f.name, s.typeName f.type) := by
        rw [List.map_map]
        rfl
      _ = fields := by
        rw [written, List.map_map]
        refine (List.map_congr_left fun field _ => ?_).trans (List.map_id _)
        exact congrArg (field.1, ·) (type_name_read field.2)
  calc final.fieldTexts (final.struct t').fields
    _ = Table.ofEntries ((final.struct t').fields.map final.fieldText) := rfl
    _ = fields := by rw [texts, Table.ofEntries_of_nodup distinct]

theorem Loads.restores (distinct : d.Distinct) {member : String × Option String} {v : EnumValue}
    (alike : s.ValueResembles final (describedValue d member) v) : Restores d final member v := by
  obtain ⟨text, data, _⟩ := alike
  have numbers : Option.Rel (fun t fields => ∃ name, StructAt d "" s t (name, fields) ∧
      (Table.keys fields).Nodup) (describedValue d member).data (member.2.bind d.structEntry?) := by
    obtain ⟨tag, _ | name⟩ := member
    · exact .none
    · exact rel_mono (loads.numbers distinct name) fun _ _ held => ⟨name, held⟩
  have fields : Option.Rel (fun t fields => final.fieldTexts (final.struct t).fields = fields)
      v.data (member.2.bind d.structEntry?) :=
    rel_trans (rel_flip data) numbers fun _ _ _ alike ⟨_, held, unrepeated⟩ =>
      loads.texts_of_struct held unrepeated alike
  exact ⟨text.symm, map_eq_of_rel fields⟩

include names

theorem Loads.denotes (distinct : d.Distinct) (bound : final.Bound) {text : String}
    (said : d.Says text) : d.Denotes text := by
  obtain ⟨base, known, alike⟩ := names.known (loads.known_of_says said)
  obtain ⟨suffixes, name, plain, same, rfl⟩ := TypeText.exists_base text
  refine Document.Denotes.suffixes ?_ suffixes
  rw [same, TypeText.baseOf] at alike
  dsimp only at alike
  split at alike
  · next kind primitive =>
    rw [← Primitive.name_of_ofName? primitive]
    exact .primitive kind
  · obtain ⟨location, rfl⟩ := alike.reference
    obtain ⟨a, defined⟩ := Option.isSome_iff_exists.mp (bound name location known)
    obtain ⟨member, rfl⟩ := name_of_definition defined
    obtain ⟨b, written, replaced⟩ := exists_left names.definitions member
    obtain ⟨⟨key, type⟩, entry, loaded⟩ := exists_left loads.definitions written
    obtain rfl : key = a.name := loaded.name.trans replaced.name.symm
    exact .entry plain (Table.get?_of_mem distinct.types entry)

theorem Loads.exists_enum (distinct : d.Distinct) {name : String}
    {members : List (String × Option String)} (entry : (name, .enum members) ∈ d.types) :
    ∃ a ∈ final.definitions, ∃ e, a.name = name ∧ a.type = .ofBase (.enum e) ∧
      List.Forall₂ (Restores d final) members (final.enum e).values := by
  obtain ⟨definition, written, loaded⟩ := exists_right loads.definitions entry
  cases loaded with
  | @enum _ _ e held =>
    obtain ⟨a, member, replaced⟩ := exists_right names.definitions written
    obtain ⟨e', same, values⟩ :=
      (replaced.type.base.trans (names.revises.resembles _)).enum
    refine ⟨a, member, e', replaced.name, ?_, ?_⟩
    · have bare : a.type.suffixes = [] := replaced.type.suffixes
      obtain ⟨_, ⟨suffixes, base⟩, _, _⟩ := a
      cases bare
      cases same
      rfl
    · rw [held.2] at values
      exact (List.forall₂_map_left_iff.mp values).imp fun _ _ alike => loads.restores distinct alike

end Loaded

theorem Names.collect {g : Schema} (names : s.Names g) : s.Names g.collectTypes where
  revises := ⟨names.revises.structCount, names.revises.enumCount, names.revises.members,
    names.revises.fields, names.revises.field, names.revises.values⟩
  definitions := names.definitions
  errors := names.errors
  operations := names.operations

theorem Accepted.names_of_document {named expanded : Schema} (distinct : d.Distinct)
    (accepted : Accepted (ofDocument d) named expanded final) :
    (ofDocument d).addFatal.Names final := by
  have grounded := grounded_of_document d
  have names := names_of_name_types grounded.add_fatal accepted.names
  have spread : named.Spread := by
    constructor
    · intro t _
      rw [names.revises.members]
      exact (memberless_of_document d).add_fatal t
    · intro o member
      obtain ⟨first, written, replaced⟩ := exists_left names.operations member
      obtain ⟨entry, _, _, rfl, _⟩ :=
        exists_left (loads_of_document distinct.types).add_fatal.operations written
      exact replaced.members
  cases accepted.spreads.symm.trans (expand_spreads_again spread)
  rw [accepted.final]
  exact names.collect

section Projection

variable {doc : Document} (written : final.document = .ok doc)

include written

theorem struct_entry_of_document {t : StructId} (listed : t ∈ final.structOrder)
    (free : ¬ final.IsAlias (final.struct t).name) :
    doc.structEntry? (final.struct t).name = some (final.fieldTexts (final.struct t).fields) := by
  have entry := (get_collected_iff (document_iff.mp ⟨doc, written⟩)
    (List.mem_append_left _ (List.mem_map_of_mem listed)) nofun).mpr free
  rw [← types_of_document written] at entry
  simp only [Document.structEntry?, entry]

theorem enum_entry_of_document {e : EnumId} (listed : e ∈ final.enumOrder)
    (free : ¬ final.IsAlias (final.enum e).name) :
    doc.types.get? (final.enum e).name = some (.enum (final.enumMembers (final.enum e))) := by
  rw [types_of_document written]
  exact (get_collected_iff (document_iff.mp ⟨doc, written⟩)
    (List.mem_append_right _ (List.mem_map_of_mem listed)) nofun).mpr free

theorem Restores.keeps {member : String × Option String} {v : EnumValue}
    (restores : Restores d final member v) (listed : ∀ t, v.data = some t → t ∈ final.structOrder) :
    d.Keeps doc final.IsAlias member (v.text, v.data.map fun t => (final.struct t).name) := by
  obtain ⟨text, fields⟩ := restores
  refine ⟨text, by simp [← fields], fun free => ?_⟩
  rw [← fields]
  cases data : v.data with
  | none => rfl
  | some t => exact struct_entry_of_document written (listed t data) (free _ (by rw [data]; rfl))

end Projection

end Schema

namespace Artifact

open Schema

theorem analysed_of_loaded {d : Document} {final : Schema}
    (loaded : ofDocument? (some d) = .ok final) : (ofDocument d).analyse = .ok final := by
  change (ofDocument d).analyse.mapError LoadError.invalid = .ok final at loaded
  cases outcome : (ofDocument d).analyse with
  | error e =>
    rw [outcome] at loaded
    cases loaded
  | ok result =>
    rw [outcome] at loaded
    cases loaded
    rfl

/-- In a value that is loaded, each text denotes a type. The members of an enum have the data of the
structs that they name, and those have none that name no struct. There is a document of it if no two
structs or enums have come to share a name; the members are the same there, unless definitions of
other types have their names or those of their data. -/
theorem load_resolves {value : Value} {final : Schema} (loaded : ofValue value = .ok final) :
    ∃ d, Document.ofValue? value = some d ∧ (∀ text, d.Says text → d.Denotes text) ∧
      ((∃ doc, final.document = .ok doc) ↔ (final.collected.map final.baseName).Nodup) ∧
      ∀ name members, (name, .enum members) ∈ d.types →
        ∃ a ∈ final.definitions, ∃ e ∈ final.enumOrder,
          a.name = name ∧ a.type = .ofBase (.enum e) ∧
          List.Forall₂ (Restores d final) members (final.enum e).values ∧
          ∀ doc, final.document = .ok doc → ¬ final.IsAlias (final.enum e).name →
            ∃ members', doc.types.get? (final.enum e).name = some (.enum members') ∧
              List.Forall₂ (d.Keeps doc final.IsAlias) members members' := by
  unfold ofValue at loaded
  cases read : Document.ofValue? value with
  | none =>
    rw [read] at loaded
    cases loaded
  | some d =>
    rw [read] at loaded
    obtain ⟨named, expanded, stages⟩ := accepted_of_analyse (analysed_of_loaded loaded)
    have distinct := Document.distinct_of_read read
    have loads := (loads_of_document distinct.types).add_fatal
    have names := stages.names_of_document distinct
    refine ⟨d, rfl, fun text => loads.denotes names distinct (stages.bound (grounded_of_document d)),
      document_iff, fun name members entry => ?_⟩
    obtain ⟨a, defined, e, same, type, values⟩ := loads.exists_enum names distinct entry
    have known : final.Known (.enum e) := by
      have declared := known_of_declares (.definition defined)
      rwa [type] at declared
    have listed : e ∈ final.enumOrder := by
      simpa [collected] using stages.collects known trivial
    refine ⟨a, defined, e, listed, same, type, values, fun doc written free =>
      ⟨_, enum_entry_of_document written listed free, ?_⟩⟩
    rw [enumMembers, List.forall₂_map_right_iff]
    refine forall_of_mem values fun member _ v held restores => restores.keeps written ?_
    intro t data
    have inside : final.Known (.struct t) := known.reaches (.single (.value held data))
    simpa [collected] using stages.collects inside trivial

def seats : Value :=
  Document.record [
    ("errors", .list [.string "Full", .list [.string "Taken", .string "Seat"]]),
    ("functionTable", Document.record [("book", Document.record [
      ("args", Document.record [("seat", .string "Seat?")]), ("ret", .string "Ticket[]")])]),
    ("typeTable", Document.record [
      ("Seat", .list [.string "any", .list [.string "numbered", .string "Place"]]),
      ("Place", Document.record [("row", .string "int")]),
      ("Ticket", Document.record [("seat", .string "Seat")])])]

theorem seats_resolve : ∃ final d, ofValue seats = .ok final ∧ Document.ofValue? seats = some d ∧
    d.Says "Seat" ∧ ∀ text, d.Says text → d.Denotes text := by
  have sound : (ofValue seats).isOk = true := by decide +kernel
  have errors : (Document.ofValue? seats).map (·.errors) =
      some [("Full", none), ("Taken", some "Seat")] := by decide +kernel
  obtain ⟨final, loaded⟩ := exists_of_is_ok sound
  obtain ⟨d, read, denotes, _⟩ := load_resolves loaded
  rw [read] at errors
  have same : d.errors = [("Full", none), ("Taken", some "Seat")] := Option.some.inj errors
  have said : ("Taken", some "Seat") ∈ d.errors := by
    rw [same]
    decide
  exact ⟨final, d, loaded, read, .error said, denotes⟩

/-- The data of a member is called as no struct is. -/
def dangling : Value :=
  Document.record [("typeTable", Document.record [
    ("E", .list [.list [.string "a", .string "Missing"]])])]

/-- The member of the dangling name is left without data. -/
theorem missing_struct_dropped :
    ((ofValue dangling).toOption.bind fun final => final.document.toOption.map (·.types)) =
      some [("E", .enum [("a", none)])] := by
  decide +kernel

/-- Every value of `S` holds another one: the search misses it behind `b`, because it has gone
through the names `N` and `M` behind `a` already. -/
def siblings : String :=
  "type S enum \x7b a \x7b c: \x7b x: N \x7d, s: S \x7d, b \x7b y: N \x7d \x7d\ntype N M\ntype M S\nfn f(s: S)"

/-- Where the type of `c` has its own name, nothing hides what `b` leads to. -/
theorem siblings_refused :
    ((Schema.compiled? siblings).bind fun (final, _) =>
      (write final).toOption.map fun text =>
        match read text with
        | .ok _ => none
        | .error e => some e) =
      some (some (.invalid (.semantic (.endlessType "S" {})))) := by
  simp only [Schema.compiled?, SchemaTree.parse_by_chars, read, Document.ofText?, Json.read_by_chars]
  decide +kernel

end Artifact

end ApiSchema
