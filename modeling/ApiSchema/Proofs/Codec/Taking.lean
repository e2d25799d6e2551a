import ApiSchema.Proofs.Codec.Nulls

/-! What is received for the types of a schema. Whatever the schema allows for is decoded. -/

namespace ApiSchema.Codec

open Schema

/-- A transmitted form is that of some value of a primitive type. -/
def Accepts [UrlNormaliser] (kind : Primitive) (received : Value) : Prop :=
  (received = .null → kind = .void) ∧
    ∀ path, ∃ value, decodeScalar path kind.name (scalarOf kind) received = .ok value

/-- What may be received for a type of a schema. -/
inductive Taken [UrlNormaliser] (s : Schema) : TypeUse → Value → Prop where
  | null {rest base} : Taken s ⟨.optional :: rest, base⟩ .null
  | optional {rest base received} (inner : Taken s ⟨rest, base⟩ received) :
    Taken s ⟨.optional :: rest, base⟩ received
  | array {rest base items} (each : ∀ item ∈ items, Taken s ⟨rest, base⟩ item) :
    Taken s ⟨.array :: rest, base⟩ (.list items)
  | primitive {kind received} (accepts : Accepts kind received) :
    Taken s ⟨[], .primitive kind⟩ received
  | reference {name location d received} (defined : s.definition? name = some d)
    (behind : Taken s d.type received) : Taken s ⟨[], .reference name location⟩ received
  | struct {t entries} (each : ∀ id ∈ (s.struct t).fields, Taken s (s.field id).type
      ((Value.get? entries (.string (s.field id).name)).getD .null)) :
    Taken s ⟨[], .struct t⟩ (.mapping entries)
  | tag {e v} (member : v ∈ (s.enum e).values) (bare : v.data = none) :
    Taken s ⟨[], .enum e⟩ (.string v.text)
  | tagAlone {e v t} (member : v ∈ (s.enum e).values) (data : v.data = some t)
    (each : ∀ id ∈ (s.struct t).fields, Taken s (s.field id).type .null) :
    Taken s ⟨[], .enum e⟩ (.string v.text)
  | tagged {e v t received} (member : v ∈ (s.enum e).values) (data : v.data = some t)
    (inner : Taken s ⟨[], .struct t⟩ received) :
    Taken s ⟨[], .enum e⟩ (.list [.string v.text, received])

section Enums

variable {s : Schema} {convert : Conversion} {path : String} {type : Value} {values : List EnumValue}
  {v : EnumValue} {rest : List Value}

theorem decode_members_bare (text : String) (value : Value) :
    decodeMembers convert path type value (.string text :: rest) =
      if value.same (.string text) then .ok (.mapping [(textKey "tag", .string text)])
      else decodeMembers convert path type value rest := rfl

theorem decode_members_pair (text name : String) (value : Value) :
    decodeMembers convert path type value (.list [.string text, .string name] :: rest) =
      match taggedData? (.string text) value with
      | some data => convert (path ++ "." ++ text) (.string name) data >>= decodedMember (.string text)
      | none => decodeMembers convert path type value rest := rfl

theorem decode_members_skip {member : Value} {own text : String}
    (shape : member = .string own ∨ ∃ name, member = .list [.string own, .string name])
    (other : own ≠ text) {value : Value}
    (tagged : value = .string text ∨ ∃ data, value = .list [.string text, data]) :
    decodeMembers convert path type value (member :: rest) =
      decodeMembers convert path type value rest := by
  have apart : (Value.string own).same (.string text) = false := by simpa [Value.same] using other
  have apart' : (Value.string text).same (.string own) = false := by
    simpa [Value.same] using Ne.symm other
  rcases shape with rfl | ⟨name, rfl⟩
  · rcases tagged with rfl | ⟨data, rfl⟩
    · simp [decode_members_bare, apart']
    · simp [decode_members_bare, Value.list_not_same_string]
  · rcases tagged with rfl | ⟨data, rfl⟩
    · simp [decode_members_pair, taggedData?, apart]
    · simp [decode_members_pair, taggedData?, apart', Value.string_not_same_list]

theorem member_type_shape (s : Schema) (v : EnumValue) : memberType s v = .string v.text ∨
    ∃ name, memberType s v = .list [.string v.text, .string name] := by
  unfold memberType
  cases v.data with
  | none => exact .inl rfl
  | some t => exact .inr ⟨_, rfl⟩

theorem decode_members_at (convert : Conversion) (path : String)
    (distinct : (values.map (·.text)).Nodup) (member : v ∈ values) {value : Value}
    (tagged : value = .string v.text ∨ ∃ data, value = .list [.string v.text, data]) :
    ∃ rest : List EnumValue, (∀ u ∈ rest, u.text ≠ v.text) ∧ ∀ type,
      decodeMembers convert path type value (values.map (memberType s)) =
        decodeMembers convert path type value (memberType s v :: rest.map (memberType s)) := by
  induction values with
  | nil => cases member
  | cons u rest ih =>
    rw [List.map_cons, List.nodup_cons] at distinct
    rcases List.mem_cons.mp member with rfl | later
    · exact ⟨rest, fun u inside same => distinct.1 (same ▸ List.mem_map_of_mem inside),
        fun _ => rfl⟩
    · have other : u.text ≠ v.text := fun same => distinct.1 (same ▸ List.mem_map_of_mem later)
      obtain ⟨others, apart, equal⟩ := ih distinct.2 later
      refine ⟨others, apart, fun type => ?_⟩
      rw [List.map_cons, decode_members_skip (member_type_shape s u) other tagged, equal]

theorem decode_members_other {text : String} (apart : ∀ u ∈ values, u.text ≠ text) {value : Value}
    (tagged : value = .string text ∨ ∃ data, value = .list [.string text, data]) :
    decodeMembers convert path type value (values.map (memberType s)) = refuse path type value := by
  induction values with
  | nil => rfl
  | cons u rest ih =>
    rw [List.map_cons,
      decode_members_skip (member_type_shape s u) (apart u (List.mem_cons_self ..)) tagged]
    exact ih fun other member => apart other (List.mem_cons_of_mem _ member)

theorem member_is_string : (memberType s v).isString = v.data.isNone := by
  unfold memberType
  cases v.data <;> rfl

theorem take_tag [UrlNormaliser] (table : TypeTable) (convert : Conversion) (path : String) {e : EnumId}
    (distinct : ((s.enum e).values.map (·.text)).Nodup)
    (member : v ∈ (s.enum e).values)
    (data : ∀ t, v.data = some t → ∀ place, ∃ out,
      convert place (.string (s.struct t).name) (.mapping []) = .ok (.mapping out)) :
    ∃ out, convertStep .decoding table convert path (enumType s e) (.string v.text) = .ok out := by
  rw [convert_enum]
  split
  · next plain =>
    have bare : v.data.isNone = true := by
      rw [← member_is_string (s := s)]
      exact List.all_eq_true.mp plain _ (List.mem_map_of_mem member)
    have type : memberType s v = .string v.text := by
      unfold memberType
      cases held : v.data with
      | none => rfl
      | some t => rw [held] at bare; cases bare
    refine ⟨.string v.text, if_pos ?_⟩
    rw [List.contains_iff_exists_mem_beq]
    exact ⟨_, List.mem_map_of_mem member, Value.string_same_iff.mpr type⟩
  · obtain ⟨rest, _, equal⟩ := decode_members_at (s := s) convert path distinct member (.inl rfl)
    change ∃ out, decodeMembers _ _ _ _ _ = Except.ok out
    rw [equal, memberType]
    cases held : v.data with
    | none =>
      rw [decode_members_bare, if_pos (Value.same_string_iff.mpr rfl)]
      exact ⟨_, rfl⟩
    | some t =>
      obtain ⟨out, converted⟩ := data t held (path ++ "." ++ v.text)
      have empty : taggedData? (.string v.text) (.string v.text) = some (.mapping []) :=
        if_pos (Value.same_string_iff.mpr rfl)
      dsimp only
      rw [decode_members_pair, empty]
      dsimp only
      rw [converted]
      exact ⟨_, rfl⟩

theorem take_tagged [UrlNormaliser] (table : TypeTable) (convert : Conversion) (path : String)
    {e : EnumId}
    (distinct : ((s.enum e).values.map (·.text)).Nodup)
    (member : v ∈ (s.enum e).values) {t : StructId} (held : v.data = some t) {received : Value}
    (data : ∀ place, ∃ out,
      convert place (.string (s.struct t).name) received = .ok (.mapping out)) :
    ∃ out, convertStep .decoding table convert path (enumType s e)
      (.list [.string v.text, received]) = .ok out := by
  rw [convert_enum]
  split
  · next plain =>
    have bare : v.data.isNone = true := by
      rw [← member_is_string (s := s)]
      exact List.all_eq_true.mp plain _ (List.mem_map_of_mem member)
    rw [held] at bare
    cases bare
  · obtain ⟨rest, _, equal⟩ := decode_members_at (s := s) convert path distinct member
      (.inr ⟨received, rfl⟩)
    change ∃ out, decodeMembers _ _ _ _ _ = Except.ok out
    obtain ⟨out, converted⟩ := data (path ++ "." ++ v.text)
    have inner : taggedData? (.string v.text) (.list [.string v.text, received]) = some received := by
      unfold taggedData?
      rw [Value.string_not_same_list]
      exact if_pos (Value.same_string_iff.mpr rfl)
    rw [equal, memberType, held]
    dsimp only
    rw [decode_members_pair, inner]
    dsimp only
    rw [converted]
    exact ⟨_, rfl⟩

end Enums

namespace Taken

variable [UrlNormaliser] {s : Schema} {table : TypeTable}

theorem null_cases {type : TypeUse} (taken : Taken s type .null) :
    (∃ rest base, type = ⟨.optional :: rest, base⟩) ∨ type = ⟨[], .primitive .void⟩ ∨
      ∃ name location d, type = ⟨[], .reference name location⟩ ∧ s.definition? name = some d ∧
        Taken s d.type .null ∧ d.type.isNested = false := by
  cases taken with
  | null => exact .inl ⟨_, _, rfl⟩
  | optional inner => exact .inl ⟨_, _, rfl⟩
  | primitive accepts =>
    cases accepts.1 rfl
    exact .inr (.inl rfl)
  | @reference name location d _ defined behind =>
    refine .inr (.inr ⟨name, location, d, rfl, defined, behind, ?_⟩)
    generalize d.type = type at behind
    cases behind <;> rfl

theorem nullable (describes : Describes table s) {type : TypeUse} (taken : Taken s type .null)
    (known : s.Known type.base) : Nullable table (s.typeName type) := by
  obtain ⟨ds, trail⟩ := describes.trails known
  induction ds generalizing type with
  | nil =>
    rcases taken.null_cases with ⟨rest, base, rfl⟩ | rfl | ⟨name, location, d, rfl, _⟩
    · exact ⟨_, .refl, .inl (is_optional_text_append _)⟩
    · exact ⟨_, .refl, .inr rfl⟩
    · cases trail
  | cons d ds ih =>
    rcases taken.null_cases with ⟨rest, base, rfl⟩ | rfl | ⟨name, location, d', rfl, defined, behind, bare⟩
    · exact ⟨_, .refl, .inl (is_optional_text_append _)⟩
    · exact ⟨_, .refl, .inr rfl⟩
    · cases trail with
      | reference defined' rest =>
        cases defined.symm.trans defined'
        have further : s.Known d.type.base := known.reaches (.single (.reference defined))
        exact .of_alias (describes.reference known defined bare) (ih behind further rest)

theorem admits_null (describes : Describes table s) {type : TypeUse} (taken : Taken s type .null)
    (known : s.Known type.base) : admitsNull table (s.typeName type) = true :=
  (admits_null_iff describes.plain).mpr (taken.nullable describes known)

theorem check_null (describes : Describes table s) {type : TypeUse} {received : Value}
    (taken : Taken s type received) (known : s.Known type.base) (path : String) :
    checkNull table path (.string (s.typeName type)) received = .ok () := by
  cases received with
  | null => exact check_null_null.mpr (taken.admits_null describes known)
  | _ => exact check_null_of_ne nofun

end Taken

section Decoding

variable [UrlNormaliser] {s : Schema} {table : TypeTable} {path : String} {type : TypeUse}
  {received : Value}

theorem decode_eq (described : Described table) {type : Value} (description : Description type)
    (path : String) (value : Value) :
    decode table path type value = convertStep .decoding table (decode table) path type value :=
  convert_eq decoding_local described description

theorem decode_entry (describes : Describes table s) {name : String} {entry : Value}
    (found : Value.get? table (.string name) = some entry) (proper : entry ≠ .null)
    (checked : checkNull table path (.string name) received = .ok ()) :
    decode table path (.string name) received = decode table path entry received := by
  rw [decode_eq describes.described (.name name), convert_entry (describes.plain found) found proper,
    checked]
  rfl

theorem decode_record (describes : Describes table s) {ids : List FieldId}
    {entries : List (Value × Value)} (each : ∀ id ∈ ids, ∀ place, ∃ value,
      decode table place (.string (s.typeName (s.field id).type))
        ((Value.get? entries (.string (s.field id).name)).getD .null) = .ok value) (path : String) :
    ∃ out, decode table path (recordType s ids) (.mapping entries) = .ok (.mapping out) := by
  rw [decode_eq describes.described (record_description s ids), convert_record]
  have converted : ∃ item : FieldId → Value, ∀ id ∈ ids,
      decode table (path ++ "." ++ (s.field id).name) (.string (s.typeName (s.field id).type))
        ((Value.get? entries (.string (s.field id).name)).getD .null) = .ok (item id) := by
    have one : ∀ id, ∃ item, id ∈ ids → decode table (path ++ "." ++ (s.field id).name)
        (.string (s.typeName (s.field id).type))
        ((Value.get? entries (.string (s.field id).name)).getD .null) = .ok item := by
      intro id
      by_cases member : id ∈ ids
      · obtain ⟨item, converted⟩ := each id member (path ++ "." ++ (s.field id).name)
        exact ⟨item, fun _ => converted⟩
      · exact ⟨.null, fun present => absurd present member⟩
    exact Classical.axiomOfChoice one
  obtain ⟨item, all⟩ := converted
  rw [convert_fields_iff.mpr ⟨item, all, rfl⟩]
  exact ⟨_, rfl⟩

theorem decode_struct (describes : Describes table s) {t : StructId} (known : s.Known (.struct t))
    {entries : List (Value × Value)} (each : ∀ id ∈ (s.struct t).fields, ∀ place, ∃ value,
      decode table place (.string (s.typeName (s.field id).type))
        ((Value.get? entries (.string (s.field id).name)).getD .null) = .ok value) (path : String) :
    ∃ out, decode table path (.string (s.struct t).name) (.mapping entries) = .ok (.mapping out) := by
  have present : Value.mapping entries ≠ .null := nofun
  rw [decode_entry describes (describes.struct known) nofun (check_null_of_ne present)]
  exact decode_record describes each path

theorem decode_enum (describes : Describes table s) {e : EnumId} (known : s.Known (.enum e))
    (present : received.isNull = false) : decode table path (.string (s.enum e).name) received =
      convertStep .decoding table (decode table) path (enumType s e) received := by
  have proper : received ≠ .null := by
    rintro rfl
    cases present
  rw [decode_entry describes (describes.enum known) nofun (check_null_of_ne proper),
    decode_eq describes.described (enum_description s e)]

theorem decode_null (describes : Describes table s) {rest : List Suffix} {base : TypeBase}
    (known : s.Known base) (path : String) :
    decode table path (.string (s.typeName ⟨.optional :: rest, base⟩)) .null = .ok .null := by
  have null : Taken s ⟨.optional :: rest, base⟩ .null := .null
  have checked := null.check_null describes known path
  rw [decode_eq describes.described (.name _), type_name_cons, convert_suffix]
  rw [type_name_cons] at checked
  rw [checked]
  rfl

/-- Whatever may be received for a type is decoded, to a mapping if the type is a struct. -/
theorem decodes_of_taken (describes : Describes table s) (taken : Taken s type received) :
    ∀ path, s.Known type.base →
      ∃ value, decode table path (.string (s.typeName type)) received = .ok value ∧
        ∀ t, type = ⟨[], .struct t⟩ → ∃ out, value = .mapping out := by
  induction taken with
  | null => exact fun path known => ⟨_, decode_null describes known path, fun _ same => by cases same⟩
  | @optional rest base received inner ih =>
    intro path known
    cases null : received.isNull with
    | true =>
      cases received with
      | null => exact ⟨_, decode_null describes known path, fun _ same => by cases same⟩
      | _ => cases null
    | false =>
      have checked := Taken.check_null describes (.optional inner) known path
      obtain ⟨value, converted, _⟩ := ih path known
      rw [decode_eq describes.described (.name _), type_name_cons, convert_suffix]
      rw [type_name_cons] at checked
      rw [checked]
      simp only [bind, Except.bind, convertSuffix, null, Bool.false_eq_true, if_false]
      exact ⟨value, converted, fun _ same => by cases same⟩
  | @array rest base items each ih =>
    intro path known
    have present : Value.list items ≠ .null := by simp
    rw [decode_eq describes.described (.name _), type_name_cons, convert_suffix,
      check_null_of_ne present]
    have all : ∀ item ∈ items, ∀ place, ∃ out,
        decode table place (.string (s.typeName ⟨rest, base⟩)) item = .ok out := by
      intro item member place
      obtain ⟨out, converted, _⟩ := ih item member place known
      exact ⟨out, converted⟩
    obtain ⟨outs, converted⟩ := convert_items_of_each path 0 all
    simp only [bind, Except.bind, convertSuffix, converted]
    exact ⟨_, rfl, fun _ same => by cases same⟩
  | @primitive kind received accepts =>
    intro path known
    have checked := Taken.check_null describes (.primitive accepts) known path
    obtain ⟨value, converted⟩ := accepts.2 path
    rw [decode_eq describes.described (.name _), type_name_base, baseName, convert_primitive]
    rw [type_name_base, baseName] at checked
    rw [checked]
    exact ⟨value, converted, fun _ same => by cases same⟩
  | @reference name location d received defined behind ih =>
    intro path known
    have further : s.Known d.type.base := known.reaches (.single (.reference defined))
    obtain ⟨value, converted, _⟩ := ih path further
    refine ⟨value, ?_, fun _ same => by cases same⟩
    rw [type_name_base, baseName]
    cases nested : d.type.isNested with
    | true => rwa [describes.own known defined nested] at converted
    | false =>
      have whole : Taken s ⟨[], .reference name location⟩ received := .reference defined behind
      have checked := whole.check_null describes known path
      rw [type_name_base, baseName] at checked
      have entry := describes.reference known defined nested
      rwa [decode_entry describes entry (by simp) checked]
  | @struct t entries each ih =>
    intro path known
    obtain ⟨out, converted⟩ := decode_struct describes known (fun id member place => by
      obtain ⟨value, converted, _⟩ := ih id member place
        (known.reaches (.single (.field (.inr member))))
      exact ⟨value, converted⟩) path
    exact ⟨_, converted, fun _ _ => ⟨out, rfl⟩⟩
  | @tag e v member bare =>
    intro path known
    rw [type_name_base, baseName, decode_enum describes known rfl]
    obtain ⟨out, converted⟩ := take_tag table (decode table) path
      (describes.values known) member fun t data => by
        rw [bare] at data
        cases data
    exact ⟨out, converted, fun _ same => by cases same⟩
  | @tagAlone e v t member data each ih =>
    intro path known
    have further : s.Known (.struct t) := known.reaches (.single (.value member data))
    rw [type_name_base, baseName, decode_enum describes known rfl]
    obtain ⟨out, converted⟩ := take_tag table (decode table) path
      (describes.values known) member fun u held place => by
        rw [data] at held
        cases held
        refine decode_struct describes further (fun id field place => ?_) place
        obtain ⟨value, converted, _⟩ := ih id field place
          (further.reaches (.single (.field (.inr field))))
        exact ⟨value, converted⟩
    exact ⟨out, converted, fun _ same => by cases same⟩
  | @tagged e v t received member data inner ih =>
    intro path known
    have further : s.Known (.struct t) := known.reaches (.single (.value member data))
    rw [type_name_base, baseName, decode_enum describes known rfl]
    obtain ⟨out, converted⟩ := take_tagged table (decode table) path
      (describes.values known) member data fun place => by
        obtain ⟨value, converted, record⟩ := ih place further
        obtain ⟨out, rfl⟩ := record t rfl
        exact ⟨out, converted⟩
    exact ⟨out, converted, fun _ same => by cases same⟩

end Decoding

/-! Data behind the tag of a member that has none. It is all that keeps a value from being decoded
that is otherwise one of its type, and it always does. -/

/-- Somewhere in a transmitted value there is data behind the tag of a member that has none. -/
inductive Misread (s : Schema) : TypeUse → Value → Prop where
  | optional {rest base received} (inner : Misread s ⟨rest, base⟩ received) :
    Misread s ⟨.optional :: rest, base⟩ received
  | array {rest base items item} (member : item ∈ items) (inner : Misread s ⟨rest, base⟩ item) :
    Misread s ⟨.array :: rest, base⟩ (.list items)
  | reference {name location d received} (defined : s.definition? name = some d)
    (behind : Misread s d.type received) : Misread s ⟨[], .reference name location⟩ received
  | struct {t id entries} (held : id ∈ (s.struct t).fields) (inner : Misread s (s.field id).type
      ((Value.get? entries (.string (s.field id).name)).getD .null)) :
    Misread s ⟨[], .struct t⟩ (.mapping entries)
  | bare {e v data} (member : v ∈ (s.enum e).values) (bare : v.data = none) :
    Misread s ⟨[], .enum e⟩ (.list [.string v.text, data])
  | tagged {e v t received} (member : v ∈ (s.enum e).values) (data : v.data = some t)
    (inner : Misread s ⟨[], .struct t⟩ received) :
    Misread s ⟨[], .enum e⟩ (.list [.string v.text, received])

/-- A record of some fields is misread if one of them is. -/
def MisreadFields (s : Schema) (ids : List FieldId) (received : Value) : Prop :=
  ∃ entries, received = .mapping entries ∧ ∃ id ∈ ids, Misread s (s.field id).type
    ((Value.get? entries (.string (s.field id).name)).getD .null)

variable {s : Schema} {table : TypeTable} {type : TypeUse} {received value : Value} {path : String}

theorem Misread.present (misread : Misread s type received) : received ≠ .null := by
  induction misread with
  | optional _ ih => exact ih
  | reference _ _ ih => exact ih
  | _ => exact nofun

theorem record_refused [UrlNormaliser] (describes : Describes table s) {ids : List FieldId}
    {id : FieldId}
    {entries : List (Value × Value)} (member : id ∈ ids)
    (refused : ∀ place value, decode table place (.string (s.typeName (s.field id).type))
      ((Value.get? entries (.string (s.field id).name)).getD .null) ≠ .ok value) :
    decode table path (recordType s ids) (.mapping entries) ≠ .ok value := by
  rw [decode_eq describes.described (record_description s ids), convert_record]
  intro decoded
  obtain ⟨out, converted, _⟩ := bind_ok_iff.mp decoded
  obtain ⟨item, each, _⟩ := convert_fields_iff.mp converted
  exact refused _ _ (each id member)

theorem tagged_refused [UrlNormaliser] (describes : Describes table s) {e : EnumId}
    (known : s.Known (.enum e))
    {v : EnumValue} (member : v ∈ (s.enum e).values) {data : Value}
    (refused : ∀ t, v.data = some t →
      ∀ place value, decode table place (.string (s.struct t).name) data ≠ .ok value) :
    decode table path (.string (s.enum e).name) (.list [.string v.text, data]) ≠ .ok value := by
  rw [decode_enum describes known rfl, convert_enum]
  split
  · exact refuse_ne_ok
  · obtain ⟨rest, apart, equal⟩ := decode_members_at (s := s) (decode table) path
      (describes.values known) member (.inr ⟨data, rfl⟩)
    change decodeMembers _ _ _ _ _ ≠ Except.ok value
    rw [equal, memberType]
    cases held : v.data with
    | none =>
      dsimp only
      rw [decode_members_bare, Value.list_not_same_string, if_neg Bool.false_ne_true,
        decode_members_other apart (.inr ⟨data, rfl⟩)]
      exact refuse_ne_ok
    | some t =>
      have behind : taggedData? (.string v.text) (.list [.string v.text, data]) = some data := by
        unfold taggedData?
        rw [Value.string_not_same_list]
        exact if_pos (Value.same_string_iff.mpr rfl)
      dsimp only
      rw [decode_members_pair, behind]
      intro decoded
      obtain ⟨out, converted, _⟩ := bind_ok_iff.mp decoded
      exact refused t held _ _ converted

/-- What is misread is not decoded. -/
theorem refused_of_misread [UrlNormaliser] (describes : Describes table s)
    (misread : Misread s type received) :
    ∀ path value, s.Known type.base →
      decode table path (.string (s.typeName type)) received ≠ .ok value := by
  induction misread with
  | @optional rest base received inner ih =>
    intro path value known
    have present := Value.is_null_of_ne inner.present
    rw [decode_eq describes.described (.name _), type_name_cons, convert_suffix,
      check_null_of_ne inner.present]
    simp only [bind, Except.bind, convertSuffix, present, Bool.false_eq_true, if_false]
    exact ih path value known
  | @array rest base items item member inner ih =>
    intro path value known
    rw [decode_eq describes.described (.name _), type_name_cons, convert_suffix,
      check_null_of_ne (show Value.list items ≠ .null by simp)]
    intro decoded
    obtain ⟨_, _, decoded⟩ := bind_ok_iff.mp decoded
    obtain ⟨outs, converted, _⟩ := bind_ok_iff.mp decoded
    obtain ⟨place, out, converted⟩ := (convert_items_ok converted).2 item member
    exact ih place out known converted
  | @reference name location d received defined behind ih =>
    intro path value known
    have further : s.Known d.type.base := known.reaches (.single (.reference defined))
    have refused := ih path value further
    rw [type_name_base, baseName]
    cases nested : d.type.isNested with
    | true => rwa [describes.own known defined nested] at refused
    | false =>
      rwa [decode_entry describes (describes.reference known defined nested) (by simp)
        (check_null_of_ne behind.present)]
  | @struct t id entries held inner ih =>
    intro path value known
    have present : Value.mapping entries ≠ .null := by simp
    rw [type_name_base, baseName,
      decode_entry describes (describes.struct known) (by simp [recordType]) (check_null_of_ne present)]
    exact record_refused describes held fun place value =>
      ih place value (known.reaches (.single (.field (.inr held))))
  | @bare e v data member bare =>
    intro path value known
    refine tagged_refused describes known member fun t held => ?_
    rw [bare] at held
    cases held
  | @tagged e v t received member data inner ih =>
    intro path value known
    refine tagged_refused describes known member fun u held place value => ?_
    rw [data] at held
    cases held
    exact ih place value (known.reaches (.single (.value member data)))

end ApiSchema.Codec
