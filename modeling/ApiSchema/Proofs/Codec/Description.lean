import ApiSchema.Proofs.Analysis.Trails
import ApiSchema.Proofs.Analysis.Spreading
import ApiSchema.Proofs.TypeText
import ApiSchema.Proofs.Codec.Bound

/-! Tables that describe the types of a schema, and single steps of a conversion by them. -/

namespace ApiSchema.Codec

open Schema

def recordType (s : Schema) (ids : List FieldId) : Value :=
  .mapping (ids.map fun id => (.string (s.field id).name, .string (s.typeName (s.field id).type)))

def memberType (s : Schema) (v : EnumValue) : Value :=
  match v.data with
  | none => .string v.text
  | some t => .list [.string v.text, .string (s.struct t).name]

def enumType (s : Schema) (e : EnumId) : Value := .list ((s.enum e).values.map (memberType s))

theorem record_description (s : Schema) (ids : List FieldId) : Description (recordType s ids) := by
  refine .struct fun key type member => ?_
  obtain ⟨id, _, same⟩ := List.mem_map.mp member
  cases same
  exact .name _

theorem enum_description (s : Schema) (e : EnumId) : Description (enumType s e) := by
  have pairs : ∀ member ∈ (s.enum e).values.map (memberType s), ∀ tag type,
      memberPair member = .ok (tag, type) →
        ∃ text name, tag = Value.string text ∧ type = Value.string name := by
    intro member listed tag type pair
    obtain ⟨v, _, rfl⟩ := List.mem_map.mp listed
    unfold memberType at pair
    split at pair
    · cases pair
    · cases pair
      exact ⟨_, _, rfl, rfl⟩
  refine .enum ?_ ?_
  · intro member listed tag type pair
    obtain ⟨_, _, rfl, _⟩ := pairs member listed tag type pair
    rfl
  · intro member listed tag type pair
    obtain ⟨_, _, _, rfl⟩ := pairs member listed tag type pair
    exact .name _

/-- Names of a table that neither end in a suffix nor are those of scalar types. -/
def PlainNames (table : TypeTable) : Prop := ∀ {name type},
  Value.get? table (.string name) = some type →
    TypeText.peel? name = none ∧ Scalar.ofName? name = none

theorem PlainNames.no_entry_peeled {table : TypeTable} (plain : PlainNames table)
    {name inner : String} {suffix : Suffix} (peeled : TypeText.peel? name = some (suffix, inner)) :
    Value.get? table (.string name) = none := by
  cases found : Value.get? table (.string name) with
  | none => rfl
  | some type =>
    rw [(plain found).1] at peeled
    cases peeled

theorem PlainNames.no_entry_scalar {table : TypeTable} (plain : PlainNames table) {name : String}
    {s : Scalar} (scalar : Scalar.ofName? name = some s) :
    Value.get? table (.string name) = none := by
  cases found : Value.get? table (.string name) with
  | none => rfl
  | some type =>
    rw [(plain found).2] at scalar
    cases scalar

/-- A table in which every type behind the declarations of a schema has its own entry. -/
structure Describes (table : TypeTable) (s : Schema) : Prop where
  described : Described table
  bound : s.Bound
  trails : ∀ {base}, s.Known base → ∃ ds, s.Trail base ds
  struct : ∀ {t}, s.Known (.struct t) →
    Value.get? table (.string (s.struct t).name) = some (recordType s (s.struct t).fields)
  enum : ∀ {e}, s.Known (.enum e) →
    Value.get? table (.string (s.enum e).name) = some (enumType s e)
  reference : ∀ {name location d}, s.Known (.reference name location) →
    s.definition? name = some d → d.type.isNested = false →
    Value.get? table (.string name) = some (.string (s.typeName d.type))
  own : ∀ {name location d}, s.Known (.reference name location) →
    s.definition? name = some d → d.type.isNested = true → s.typeName d.type = name
  plain : ∀ {name item}, Value.get? table (.string name) = some item →
    TypeText.peel? name = none ∧ Scalar.ofName? name = none
  fields : ∀ t, s.DistinctNames (s.struct t).fields
  values : ∀ {e}, s.Known (.enum e) → ((s.enum e).values.map (·.text)).Nodup

section Steps

variable {w : Way} {table : TypeTable} {convert : Conversion} {path : String} {value : Value}

theorem check_null_of_ne {type : Value} (present : value ≠ .null) :
    checkNull table path type value = .ok () := by
  unfold checkNull
  split
  · exact absurd rfl present
  · rfl

theorem check_null_null {name : String} :
    checkNull table path (.string name) .null = .ok () ↔ admitsNull table name = true := by
  simp [checkNull]

theorem settle_of_no_entry {name : String} (ended : Value.get? table (.string name) = none)
    (fuel : Nat) (met : List String) : settle table fuel met (.string name) = .string name := by
  cases fuel with
  | zero => rfl
  | succ fuel =>
    unfold settle
    split
    · rfl
    · rw [ended]

theorem convert_suffix (suffix : Suffix) (inner : String) :
    convertStep w table convert path (.string (inner ++ suffix.text)) value =
      (checkNull table path (.string (inner ++ suffix.text)) value >>= fun _ =>
        convertSuffix convert path (inner ++ suffix.text) suffix inner value) := by
  simp only [convertStep, convertNamed, TypeText.peel?_append]

theorem convert_primitive (kind : Primitive) :
    convertStep w table convert path (.string kind.name) value =
      (checkNull table path (.string kind.name) value >>= fun _ =>
        w.scalar path kind.name (scalarOf kind) value) := by
  simp only [convertStep, convertNamed, TypeText.peel?_primitive, scalar_of_primitive]

theorem convert_entry {name : String} {type : Value}
    (plain : TypeText.peel? name = none ∧ Scalar.ofName? name = none)
    (entry : Value.get? table (.string name) = some type) (proper : type ≠ .null) :
    convertStep w table convert path (.string name) value =
      (checkNull table path (.string name) value >>= fun _ => convert path type value) := by
  simp only [convertStep, convertNamed, plain.1, plain.2, entry]

theorem exists_room (table : TypeTable) (type value : Value) :
    ∃ fuel, bound table type value = fuel + 2 := by
  refine Nat.exists_eq_add_of_le' ?_
  calc 2 ≤ 3 * 2 := by decide
    _ ≤ bound table type value := Nat.mul_le_mul (Nat.le_add_left 3 _) (Nat.le_add_left 2 _)

theorem convert_scalar (kind : Primitive) : Codec.convert w table path (.string kind.name) value =
    (checkNull table path (.string kind.name) value >>= fun _ =>
      w.scalar path kind.name (scalarOf kind) value) := by
  obtain ⟨fuel, room⟩ := exists_room table (.string kind.name) value
  rw [Codec.convert, room, convert_within_succ, convert_primitive]

theorem convert_present (kind : Primitive) (present : value ≠ .null) :
    Codec.convert w table path (.string kind.name) value =
      w.scalar path kind.name (scalarOf kind) value := by
  rw [convert_scalar, check_null_of_ne present]
  rfl

theorem decode_scalar [UrlNormaliser] {kind : Primitive} (present : value ≠ .null) :
    decode table path (.string kind.name) value = decodeScalar path kind.name (scalarOf kind) value :=
  convert_present kind present

theorem convert_enum (s : Schema) (e : EnumId) :
    convertStep w table convert path (enumType s e) value =
      if ((s.enum e).values.map (memberType s)).all Value.isString then
        convertPlainEnum path ((s.enum e).values.map (memberType s)) value
      else w.tagged convert path ((s.enum e).values.map (memberType s)) value := rfl

theorem convert_record (s : Schema) (ids : List FieldId) (entries : List (Value × Value)) :
    convertStep w table convert path (recordType s ids) (.mapping entries) =
      (convertFields convert path entries
        (ids.map fun id => (.string (s.field id).name, .string (s.typeName (s.field id).type))) >>=
          fun fields => .ok (.mapping fields)) := rfl

theorem below_text (name : String) : below path (.string name) = .ok (path ++ "." ++ name) := rfl

theorem convert_fields_iff {α : Type} {nameOf : α → String} {typeOf : α → Value} {fields : List α}
    {entries out : List (Value × Value)} :
    convertFields convert path entries (fields.map fun a => (.string (nameOf a), typeOf a)) =
      .ok out ↔
    ∃ item : α → Value,
      (∀ a ∈ fields, convert (path ++ "." ++ nameOf a) (typeOf a)
        ((Value.get? entries (.string (nameOf a))).getD .null) = .ok (item a)) ∧
      out = fields.map fun a => (.string (nameOf a), item a) := by
  constructor
  · intro converted
    let item (a : α) : Value := ((convert (path ++ "." ++ nameOf a) (typeOf a)
      ((Value.get? entries (.string (nameOf a))).getD .null)).toOption).getD .null
    refine ⟨item, ?_⟩
    induction fields generalizing out with
    | nil =>
      cases converted
      exact ⟨nofun, rfl⟩
    | cons a rest ih =>
      simp only [List.map_cons, convertFields, below_text] at converted
      obtain ⟨_, ⟨⟩, converted⟩ := bind_ok_iff.mp converted
      obtain ⟨own, first, converted⟩ := bind_ok_iff.mp converted
      obtain ⟨others, later, same⟩ := bind_ok_iff.mp converted
      cases same
      obtain ⟨each, rfl⟩ := ih later
      have equal : item a = own := by
        simp only [item, first]
        rfl
      refine ⟨fun other member => ?_, ?_⟩
      · rcases List.mem_cons.mp member with rfl | behind
        · rw [equal]
          exact first
        · exact each other behind
      · rw [List.map_cons, equal]
  · rintro ⟨item, each, rfl⟩
    induction fields with
    | nil => rfl
    | cons a rest ih =>
      simp only [List.map_cons, convertFields, below_text]
      refine bind_ok_iff.mpr ⟨_, rfl, ?_⟩
      refine bind_ok_iff.mpr ⟨item a, each a (List.mem_cons_self ..), ?_⟩
      exact bind_ok_iff.mpr
        ⟨_, ih fun other member => each other (List.mem_cons_of_mem _ member), rfl⟩

theorem convert_items_ok {type : Value} {items outs : List Value} {index : Nat}
    (converted : convertItems convert path type index items = .ok outs) :
    (∀ out ∈ outs, ∃ item ∈ items, ∃ place, convert place type item = .ok out) ∧
      ∀ item ∈ items, ∃ place out, convert place type item = .ok out := by
  induction items generalizing index outs with
  | nil =>
    cases converted
    exact ⟨nofun, nofun⟩
  | cons item rest ih =>
    simp only [convertItems] at converted
    obtain ⟨out, first, converted⟩ := bind_ok_iff.mp converted
    obtain ⟨others, later, same⟩ := bind_ok_iff.mp converted
    cases same
    obtain ⟨back, forth⟩ := ih later
    constructor
    · intro other member
      rcases List.mem_cons.mp member with rfl | behind
      · exact ⟨item, List.mem_cons_self .., _, first⟩
      · obtain ⟨source, present, place, converted⟩ := back other behind
        exact ⟨source, List.mem_cons_of_mem _ present, place, converted⟩
    · intro other member
      rcases List.mem_cons.mp member with rfl | behind
      · exact ⟨_, out, first⟩
      · exact forth other behind

theorem convert_items_of_each {type : Value} {items : List Value} (path : String) (index : Nat)
    (each : ∀ item ∈ items, ∀ place, ∃ out, convert place type item = .ok out) :
    ∃ outs, convertItems convert path type index items = .ok outs := by
  induction items generalizing index with
  | nil => exact ⟨[], rfl⟩
  | cons item rest ih =>
    obtain ⟨out, first⟩ := each item (List.mem_cons_self ..) _
    obtain ⟨outs, later⟩ := ih (index + 1) fun other member =>
      each other (List.mem_cons_of_mem _ member)
    refine ⟨out :: outs, ?_⟩
    simp only [convertItems]
    exact bind_ok_iff.mpr ⟨out, first, bind_ok_iff.mpr ⟨outs, later, rfl⟩⟩

end Steps

namespace Describes

variable {table : TypeTable} {s : Schema}

theorem plain_struct (describes : Describes table s) {t : StructId} (known : s.Known (.struct t)) :
    TypeText.peel? (s.struct t).name = none ∧ Scalar.ofName? (s.struct t).name = none :=
  describes.plain (describes.struct known)

theorem plain_enum (describes : Describes table s) {e : EnumId} (known : s.Known (.enum e)) :
    TypeText.peel? (s.enum e).name = none ∧ Scalar.ofName? (s.enum e).name = none :=
  describes.plain (describes.enum known)

theorem no_entry_suffix (describes : Describes table s) (inner : String) (suffix : Suffix) :
    Value.get? table (.string (inner ++ suffix.text)) = none :=
  PlainNames.no_entry_peeled describes.plain (TypeText.peel?_append inner suffix)

theorem no_entry_primitive (describes : Describes table s) (kind : Primitive) :
    Value.get? table (.string kind.name) = none :=
  PlainNames.no_entry_scalar describes.plain (scalar_of_primitive kind)

theorem admits_null_primitive (describes : Describes table s) (kind : Primitive) :
    admitsNull table kind.name = true ↔ kind = .void := by
  unfold admitsNull
  rw [settle_of_no_entry (describes.no_entry_primitive kind)]
  cases kind <;> decide

end Describes

end ApiSchema.Codec
