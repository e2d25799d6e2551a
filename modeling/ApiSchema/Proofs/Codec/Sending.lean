import ApiSchema.Proofs.Codec.Description
import ApiSchema.Proofs.Value.Parts

/-! What is transmitted for the types of a schema. Whatever a value is, its transmitted form is one
that the schema itself allows for. -/

namespace ApiSchema

namespace Codec

open Schema

variable [UrlNormaliser]

/-- The transmitted form of some value of a primitive type. -/
def Transmits (kind : Primitive) (sent : Value) : Prop :=
  ∃ path value, value.Sound ∧ (value = .null → kind = .void) ∧
    encodeScalar path kind.name (scalarOf kind) value = .ok sent

/-- What may be transmitted for a type of a schema. -/
inductive Sent (s : Schema) : TypeUse → Value → Prop where
  | null {rest base} : Sent s ⟨.optional :: rest, base⟩ .null
  | optional {rest base sent} (inner : Sent s ⟨rest, base⟩ sent) :
    Sent s ⟨.optional :: rest, base⟩ sent
  | array {rest base items} (each : ∀ item ∈ items, Sent s ⟨rest, base⟩ item) :
    Sent s ⟨.array :: rest, base⟩ (.list items)
  | primitive {kind sent} (transmits : Transmits kind sent) : Sent s ⟨[], .primitive kind⟩ sent
  | reference {name location d sent} (defined : s.definition? name = some d)
    (behind : Sent s d.type sent) : Sent s ⟨[], .reference name location⟩ sent
  | struct {t} {item : FieldId → Value}
    (each : ∀ id ∈ (s.struct t).fields, Sent s (s.field id).type (item id)) :
    Sent s ⟨[], .struct t⟩
      (.mapping ((s.struct t).fields.map fun id => (.string (s.field id).name, item id)))
  | tag {e v} (member : v ∈ (s.enum e).values) (bare : v.data = none) :
    Sent s ⟨[], .enum e⟩ (.string v.text)
  | tagAlone {e v t} (member : v ∈ (s.enum e).values) (data : v.data = some t)
    (each : ∀ id ∈ (s.struct t).fields, Sent s (s.field id).type .null) :
    Sent s ⟨[], .enum e⟩ (.string v.text)
  | tagged {e v t sent} (member : v ∈ (s.enum e).values) (data : v.data = some t)
    (inner : Sent s ⟨[], .struct t⟩ sent) :
    Sent s ⟨[], .enum e⟩ (.list [.string v.text, sent])

/-- What a conversion makes of the values of a schema may be transmitted. -/
structure Sends (s : Schema) (convert : Conversion) : Prop where
  named : ∀ {path type value sent}, s.Known type.base → value.Sound →
    convert path (.string (s.typeName type)) value = .ok sent → Sent s type sent
  record : ∀ {path ids value sent}, (∀ id ∈ ids, s.Known (s.field id).type.base) → value.Sound →
    convert path (recordType s ids) value = .ok sent → ∃ item : FieldId → Value,
      sent = .mapping (ids.map fun id => (.string (s.field id).name, item id)) ∧
        ∀ id ∈ ids, Sent s (s.field id).type (item id)
  enum : ∀ {path e value sent}, s.Known (.enum e) → value.Sound →
    convert path (enumType s e) value = .ok sent → Sent s ⟨[], .enum e⟩ sent

section Steps

variable {s : Schema} {table : TypeTable} {convert : Conversion} {path : String}
  {value sent : Value}

theorem send_suffix (sends : Sends s convert) {suffix : Suffix} {rest : List Suffix}
    {base : TypeBase} (known : s.Known base) (sound : value.Sound)
    (converted : convertSuffix convert path (s.typeName ⟨suffix :: rest, base⟩) suffix
      (s.typeName ⟨rest, base⟩) value = .ok sent) : Sent s ⟨suffix :: rest, base⟩ sent := by
  have within : s.Known (⟨rest, base⟩ : TypeUse).base := known
  cases suffix with
  | optional =>
    simp only [convertSuffix] at converted
    split at converted
    · cases converted
      exact .null
    · exact .optional (sends.named within sound converted)
  | array =>
    have each : ∀ items, (value = .list items ∨ value = .tuple items) →
        (do return Value.list (← convertItems convert path (.string (s.typeName ⟨rest, base⟩)) 0 items))
          = .ok sent → Sent s ⟨.array :: rest, base⟩ sent := by
      intro items listed converted
      obtain ⟨outs, all, same⟩ := bind_ok_iff.mp converted
      cases same
      refine .array fun out member => ?_
      obtain ⟨item, present, place, each⟩ := (convert_items_ok all).1 out member
      exact sends.named within (sound.item listed present) each
    simp only [convertSuffix] at converted
    split at converted
    · next items => exact each items (.inl rfl) converted
    · next items => exact each items (.inr rfl) converted
    · exact absurd converted mismatch_ne_ok

theorem send_record (sends : Sends s convert) {ids : List FieldId}
    (known : ∀ id ∈ ids, s.Known (s.field id).type.base) (sound : value.Sound)
    (converted : convertStep .encoding table convert path (recordType s ids) value = .ok sent) :
    ∃ item : FieldId → Value,
      sent = .mapping (ids.map fun id => (.string (s.field id).name, item id)) ∧
        ∀ id ∈ ids, Sent s (s.field id).type (item id) := by
  obtain ⟨_, _, converted⟩ := bind_ok_iff.mp converted
  simp only [recordType] at converted
  split at converted
  · obtain ⟨out, all, same⟩ := bind_ok_iff.mp converted
    cases same
    obtain ⟨item, each, rfl⟩ := convert_fields_iff.mp all
    refine ⟨item, rfl, fun id member => ?_⟩
    exact sends.named (known id member) (sound.entry _) (each id member)
  · exact absurd converted refuse_ne_ok

theorem sent_of_encoded_member (sends : Sends s convert) {e : EnumId} {v : EnumValue} {t : StructId}
    (known : s.Known (.enum e)) (member : v ∈ (s.enum e).values) (data : v.data = some t)
    {entries : List (Value × Value)} (sound : (Value.mapping entries).Sound)
    (converted : (below path (.string v.text) >>= fun place =>
      convert place (.string (s.struct t).name) (.mapping entries) >>=
        encodedMember (.string v.text)) = .ok sent) : Sent s ⟨[], .enum e⟩ sent := by
  obtain ⟨_, ⟨⟩, converted⟩ := bind_ok_iff.mp converted
  obtain ⟨inner, converted, written⟩ := bind_ok_iff.mp converted
  have further : s.Known (.struct t) := known.reaches (.single (.value member data))
  have held : Sent s ⟨[], .struct t⟩ inner := sends.named further sound converted
  cases held with
  | @struct _ item each =>
    simp only [encodedMember, List.all_map] at written
    split at written
    · next empty =>
      cases written
      refine .tagAlone member data fun id field => ?_
      have null := List.all_eq_true.mp empty id field
      have sent := each id field
      cases emptied : item id with
      | null => exact emptied ▸ sent
      | _ => simp [emptied, Value.isNull] at null
    · cases written
      exact .tagged member data (.struct each)

theorem send_tagged (sends : Sends s convert) {e : EnumId} (known : s.Known (.enum e))
    {type tag : Value} {entries : List (Value × Value)} (data : (Value.mapping entries).Sound) {values : List EnumValue}
    (among : values ⊆ (s.enum e).values)
    (converted : encodeMembers convert path type value tag entries (values.map (memberType s)) =
      .ok sent) : Sent s ⟨[], .enum e⟩ sent := by
  induction values with
  | nil => exact absurd converted refuse_ne_ok
  | cons v rest ih =>
    have member := among (List.mem_cons_self ..)
    have others : rest ⊆ (s.enum e).values := fun _ later => among (List.mem_cons_of_mem _ later)
    rw [List.map_cons, memberType] at converted
    cases held : v.data with
    | none =>
      simp only [held, encodeMembers] at converted
      split at converted
      · cases converted
        exact .tag member held
      · exact ih others converted
    | some t =>
      simp only [held, encodeMembers] at converted
      obtain ⟨_, ⟨⟩, converted⟩ := bind_ok_iff.mp converted
      dsimp only at converted
      split at converted
      · exact sent_of_encoded_member sends known member held data converted
      · exact ih others converted

theorem send_enum (sends : Sends s convert) {e : EnumId} (known : s.Known (.enum e))
    (sound : value.Sound)
    (converted : convertStep .encoding table convert path (enumType s e) value = .ok sent) :
    Sent s ⟨[], .enum e⟩ sent := by
  obtain ⟨_, _, converted⟩ := bind_ok_iff.mp converted
  simp only [enumType] at converted
  split at converted
  · next plain =>
    unfold convertPlainEnum at converted
    split at converted
    · next text =>
      split at converted
      · next listed =>
        cases converted
        obtain ⟨type, present, same⟩ := List.contains_iff_exists_mem_beq.mp listed
        obtain ⟨v, member, rfl⟩ := List.mem_map.mp present
        have text := Value.string_same_iff.mp same
        unfold memberType at text
        split at text
        · next bare =>
          cases text
          exact .tag member bare
        · cases text
      · exact absurd converted refuse_ne_ok
    · exact absurd converted refuse_ne_ok
  · change encodeTagged convert path ((s.enum e).values.map (memberType s)) value = .ok sent at converted
    unfold encodeTagged at converted
    split at converted
    · next entries =>
      split at converted
      · next tag found =>
        exact send_tagged sends known (sound.fewer (fun _ member => (List.mem_filter.mp member).1)) (List.Subset.refl _)
          converted
      · exact absurd converted refuse_ne_ok
    · exact absurd converted refuse_ne_ok

theorem send_named (describes : Describes table s) (sends : Sends s convert) {type : TypeUse}
    (known : s.Known type.base) (sound : value.Sound)
    (converted : convertStep .encoding table convert path (.string (s.typeName type)) value = .ok sent) :
    Sent s type sent := by
  obtain ⟨suffixes, base⟩ := type
  cases suffixes with
  | cons suffix rest =>
    rw [type_name_cons, convert_suffix] at converted
    obtain ⟨_, _, converted⟩ := bind_ok_iff.mp converted
    exact send_suffix sends known sound converted
  | nil =>
    rw [type_name_base] at converted
    have struct : ∀ {t}, s.Known (.struct t) →
        convertStep .encoding table convert path (.string (s.struct t).name) value = .ok sent →
          Sent s ⟨[], .struct t⟩ sent := by
      intro t known converted
      rw [convert_entry (describes.plain_struct known) (describes.struct known) nofun] at converted
      obtain ⟨_, _, converted⟩ := bind_ok_iff.mp converted
      obtain ⟨item, rfl, each⟩ := sends.record
        (fun id held => known.reaches (.single (.field (.inr held)))) sound converted
      exact .struct each
    have enum : ∀ {e}, s.Known (.enum e) →
        convertStep .encoding table convert path (.string (s.enum e).name) value = .ok sent →
          Sent s ⟨[], .enum e⟩ sent := by
      intro e known converted
      rw [convert_entry (describes.plain_enum known) (describes.enum known) nofun] at converted
      obtain ⟨_, _, converted⟩ := bind_ok_iff.mp converted
      exact sends.enum known sound converted
    cases base with
    | primitive kind =>
      rw [baseName, convert_primitive] at converted
      obtain ⟨_, checked, converted⟩ := bind_ok_iff.mp converted
      refine .primitive ⟨path, value, sound, ?_, converted⟩
      rintro rfl
      exact (describes.admits_null_primitive kind).mp (check_null_null.mp checked)
    | struct t => exact struct known converted
    | enum e => exact enum known converted
    | reference name location =>
      obtain ⟨d, defined⟩ := Option.isSome_iff_exists.mp (describes.bound name location known)
      have further : s.Known d.type.base := known.reaches (.single (.reference defined))
      refine .reference defined ?_
      cases nested : d.type.isNested with
      | false =>
        have entry := describes.reference known defined nested
        rw [baseName, convert_entry (describes.plain entry) entry nofun] at converted
        obtain ⟨_, _, converted⟩ := bind_ok_iff.mp converted
        exact sends.named further sound converted
      | true =>
        have own := describes.own known defined nested
        obtain ⟨name', ⟨suffixes, base⟩, notes, location'⟩ := d
        simp only [TypeUse.isNested, Bool.and_eq_true, List.isEmpty_iff] at nested
        obtain ⟨rfl, nested⟩ := nested
        rw [baseName, ← own, type_name_base] at converted
        cases base with
        | struct t => exact struct further converted
        | enum e => exact enum further converted
        | primitive _ => cases nested
        | reference _ _ => cases nested

end Steps

theorem sends_within {s : Schema} {table : TypeTable} (describes : Describes table s) (fuel : Nat) :
    Sends s (convertWithin .encoding table fuel) := by
  induction fuel with
  | zero =>
    constructor
    · intro path type value sent _ _ failed
      cases failed
    · intro path ids value sent _ _ failed
      cases failed
    · intro path e value sent _ _ failed
      cases failed
  | succ fuel ih =>
    exact ⟨fun known sound converted => send_named describes ih known sound converted,
      fun known sound converted => send_record ih known sound converted,
      fun known sound converted => send_enum ih known sound converted⟩

end Codec

end ApiSchema
