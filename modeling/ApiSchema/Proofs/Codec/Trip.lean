import ApiSchema.Proofs.Codec.Absence
import ApiSchema.Proofs.Codec.Proper
import Mathlib.Tactic.Choose

/-! Trips of values through two conversions, one after the other. -/

namespace ApiSchema.Codec

/-- The first value is converted to one that the other way converts to the last value. -/
def Trip (there back : Way) (table : TypeTable) (type first last : Value) : Prop :=
  ∃ middle, (∀ path, convert there table path type first = .ok middle) ∧
    ∀ path, convert back table path type middle = .ok last

section Records

variable {table : TypeTable} {path : String} {fields : Table Value}

def recordOf (fields : Table Value) (item : String × Value → Value) : List (Value × Value) :=
  fields.map fun field => (.string field.1, item field)

def itemOf (entries : List (Value × Value)) (field : String × Value) : Value :=
  (Value.get? entries (.string field.1)).getD .null

theorem item_of_record (distinct : fields.keys.Nodup) (item : String × Value → Value)
    {field : String × Value} (member : field ∈ fields) :
    itemOf (recordOf fields item) field = item field := by
  rw [itemOf, recordOf, Value.get?_map Prod.fst item distinct member]
  rfl

variable {w : Way} (inner : w.Local) (proper : Proper table) (distinct : fields.keys.Nodup)
  (typed : ∀ field ∈ fields, TypeOver table field.2)

include inner proper distinct typed

theorem convert_struct_iff {entries : List (Value × Value)} {out : Value} :
    convert w table path (.mapping (fields.map fun field => (.string field.1, field.2)))
        (.mapping entries) = .ok out ↔
      ∃ item, out = .mapping (recordOf fields item) ∧ ∀ field ∈ fields,
        convert w table (path ++ "." ++ field.1) field.2 (itemOf entries field) =
          .ok (item field) := by
  rw [convert_of_struct inner proper distinct typed]
  constructor
  · intro converted
    obtain ⟨inside, filled, same⟩ := bind_ok_iff.mp converted
    cases same
    obtain ⟨item, each, rfl⟩ := convert_fields_iff.mp filled
    exact ⟨item, rfl, each⟩
  · rintro ⟨item, rfl, each⟩
    exact bind_ok_iff.mpr ⟨_, convert_fields_iff.mpr ⟨item, each, rfl⟩, rfl⟩

theorem convert_struct_congr {entries others : List (Value × Value)}
    (agree : ∀ field ∈ fields, itemOf entries field = itemOf others field) :
    convert w table path (.mapping (fields.map fun field => (.string field.1, field.2)))
        (.mapping entries) =
      convert w table path (.mapping (fields.map fun field => (.string field.1, field.2)))
        (.mapping others) := by
  refine converted_of_agree inner w.unfolds_nothing proper.described proper.plain
    (description_of_over (.struct distinct typed)) (.struct fun key type member => ?_) path
  obtain ⟨field, listed, same⟩ := List.mem_map.mp member
  cases same
  change Agree _ table field.2 (itemOf entries field) (itemOf others field)
  rw [agree field listed]
  exact .same

end Records

section Structs

variable {table : TypeTable} {path name : String} {type : Value} {fields : Table Value} {w : Way}
  (inner : w.Local) (proper : Proper table)

include inner proper

theorem convert_of_struct_name {entries : List (Value × Value)}
    (found : Value.get? table (.string name) = some type) :
    convert w table path (.string name) (.mapping entries) =
      convert w table path type (.mapping entries) := by
  rw [convert_of_entry inner proper found,
    check_null_of_ne (show Value.mapping entries ≠ .null from nofun)]
  rfl

theorem convert_struct_name_congr (distinct : fields.keys.Nodup)
    (typed : ∀ field ∈ fields, TypeOver table field.2)
    (found : Value.get? table (.string name) =
      some (.mapping (fields.map fun field => (.string field.1, field.2))))
    {entries others : List (Value × Value)}
    (agree : ∀ field ∈ fields, itemOf entries field = itemOf others field) :
    convert w table path (.string name) (.mapping entries) =
      convert w table path (.string name) (.mapping others) := by
  rw [convert_of_struct_name inner proper found, convert_of_struct_name inner proper found,
    convert_struct_congr inner proper distinct typed agree]

theorem fields_of_within (typed : ∀ field ∈ fields, TypeOver table field.2)
    (found : Value.get? table (.string name) =
      some (.mapping (fields.map fun field => (.string field.1, field.2)))) {n : Nat}
    {value out : Value} (converted : convertWithin w table n path (.string name) value = .ok out) :
    ∃ entries item, value = .mapping entries ∧ out = .mapping (recordOf fields item) ∧
      ∀ field ∈ fields, convertWithin w table n (path ++ "." ++ field.1) field.2
        (itemOf entries field) = .ok (item field) := by
  match n with
  | 0 => cases converted
  | 1 =>
    rw [convert_within_succ, convert_entry (proper.plain found) found nofun] at converted
    obtain ⟨_, _, failed⟩ := bind_ok_iff.mp converted
    cases failed
  | n + 2 =>
    rw [convert_within_succ, convert_entry (proper.plain found) found nofun] at converted
    obtain ⟨_, -, behind⟩ := bind_ok_iff.mp converted
    rw [convert_within_succ] at behind
    obtain ⟨_, -, step⟩ := bind_ok_iff.mp behind
    clear converted behind
    dsimp only at step
    split at step
    · next entries =>
      obtain ⟨_, filled, same⟩ := bind_ok_iff.mp step
      cases same
      obtain ⟨item, each, rfl⟩ := convert_fields_iff.mp filled
      exact ⟨entries, item, rfl, rfl, fun field member =>
        convert_within_more inner proper (typed field member) (Nat.le_add_right n 2) (each field member)⟩
    · exact absurd step refuse_ne_ok

end Structs

theorem check_null_ok {table : TypeTable} {path name : String} {value : Value}
    (admits : value = .null → admitsNull table name = true) :
    checkNull table path (.string name) value = .ok () := by
  by_cases null : value = .null
  · rw [null]
    exact check_null_null.mpr (admits null)
  · exact check_null_of_ne null

theorem convert_items_of_forall {convert : Conversion} {type : Value} {path : String}
    {items outs : List Value}
    (each : List.Forall₂ (fun item out => ∀ path, convert path type item = .ok out) items outs) :
    ∀ index, convertItems convert path type index items = .ok outs := by
  induction each with
  | nil => exact fun _ => rfl
  | cons first _ ih =>
    intro index
    simp only [convertItems]
    exact bind_ok_iff.mpr ⟨_, first _, bind_ok_iff.mpr ⟨_, ih _, rfl⟩⟩

namespace Trip

variable {there back : Way} (forth : there.Local) (onward : back.Local) {table : TypeTable}
  (proper : Proper table)
  {name stem : String} {type first last : Value}

section Names

variable (keeps : back.KeepsNull) (nulls : first = .null ↔ last = .null)

include forth onward proper keeps nulls

theorem optional (peeled : TypeText.peel? name = some (.optional, stem))
    (within : first ≠ .null → Trip there back table (.string stem) first last) :
    Trip there back table (.string name) first last := by
  have admits := admits_null_optional proper.plain peeled
  by_cases null : first = .null
  · obtain rfl := null
    obtain rfl := nulls.mp rfl
    have converted : ∀ {w : Way}, w.Local → ∀ path,
        convert w table path (.string name) .null = .ok .null := by
      intro w inner path
      rw [convert_of_suffix inner proper peeled, check_null_null.mpr admits]
      rfl
    exact ⟨.null, converted forth, converted onward⟩
  · obtain ⟨middle, converted, returned⟩ := within null
    have filled : middle ≠ .null := by
      rintro rfl
      exact null (nulls.mpr (null_of_null keeps proper (.name stem) (returned "")))
    have peeling : ∀ {w : Way}, w.Local → ∀ path (given : Value), given ≠ .null →
        convert w table path (.string name) given = convert w table path (.string stem) given := by
      intro w inner path given present
      have some := Value.is_null_of_ne present
      rw [convert_of_suffix inner proper peeled, check_null_of_ne present]
      simp only [bind, Except.bind, convertSuffix, some, Bool.false_eq_true, if_false]
    refine ⟨middle, fun path => ?_, fun path => ?_⟩
    · rw [peeling forth path first null, converted]
    · rw [peeling onward path middle filled, returned]

theorem scalar {s : Scalar} (plain : TypeText.peel? name = none)
    (scalar : Scalar.ofName? name = some s)
    (within : ∃ middle, (∀ path name, there.scalar path name s first = .ok middle) ∧
      ∀ path name, back.scalar path name s middle = .ok last)
    (admits : first = .null → admitsNull table name = true) :
    Trip there back table (.string name) first last := by
  obtain ⟨middle, converted, returned⟩ := within
  have admits' : middle = .null → admitsNull table name = true := by
    rintro rfl
    exact admits (nulls.mpr (keeps.scalar (returned "" "")))
  refine ⟨middle, fun path => ?_, fun path => ?_⟩
  · rw [convert_of_scalar forth proper plain scalar, check_null_ok admits]
    exact converted path name
  · rw [convert_of_scalar onward proper plain scalar, check_null_ok admits']
    exact returned path name

theorem entry (found : Value.get? table (.string name) = some type)
    (behind : Trip there back table type first last)
    (admits : first = .null → admitsNull table name = true) :
    Trip there back table (.string name) first last := by
  obtain ⟨middle, converted, returned⟩ := behind
  have admits' : middle = .null → admitsNull table name = true := by
    rintro rfl
    exact admits (nulls.mpr (null_of_null keeps proper (proper.entries found) (returned "")))
  refine ⟨middle, fun path => ?_, fun path => ?_⟩
  · rw [convert_of_entry forth proper found, check_null_ok admits]
    exact converted path
  · rw [convert_of_entry onward proper found, check_null_ok admits']
    exact returned path

end Names

include forth onward proper

theorem array (peeled : TypeText.peel? name = some (.array, stem)) {items outs : List Value}
    (each : List.Forall₂ (Trip there back table (.string stem)) items outs) :
    Trip there back table (.string name) (.list items) (.list outs) := by
  have middles : ∃ middles : List Value,
      List.Forall₂ (fun item middle => ∀ path,
        convert there table path (.string stem) item = .ok middle) items middles ∧
      List.Forall₂ (fun middle out => ∀ path,
        convert back table path (.string stem) middle = .ok out) middles outs := by
    induction each with
    | nil => exact ⟨[], .nil, .nil⟩
    | cons own _ ih =>
      obtain ⟨middle, converted, returned⟩ := own
      obtain ⟨middles, others, others'⟩ := ih
      exact ⟨middle :: middles, .cons converted others, .cons returned others'⟩
  have listed : ∀ {w : Way}, w.Local → ∀ path {given outs : List Value},
      List.Forall₂ (fun item out => ∀ path, convert w table path (.string stem) item = .ok out)
        given outs → convert w table path (.string name) (.list given) = .ok (.list outs) := by
    intro w inner path given outs all
    rw [convert_of_suffix inner proper peeled,
      check_null_of_ne (show Value.list given ≠ .null from nofun)]
    simp only [bind, Except.bind, convertSuffix, convert_items_of_forall all]
    rfl
  obtain ⟨middles, converted, returned⟩ := middles
  exact ⟨.list middles, fun path => listed forth path converted,
    fun path => listed onward path returned⟩

theorem record {fields : Table Value} (distinct : fields.keys.Nodup)
    (typed : ∀ field ∈ fields, TypeOver table field.2) {item item' : String × Value → Value}
    (each : ∀ field ∈ fields, Trip there back table field.2 (item field) (item' field)) :
    Trip there back table (.mapping (fields.map fun field => (.string field.1, field.2)))
      (.mapping (recordOf fields item)) (.mapping (recordOf fields item')) := by
  choose! middle both using each
  refine ⟨.mapping (recordOf fields middle), fun path => ?_, fun path => ?_⟩
  · refine (convert_struct_iff forth proper distinct typed).mpr ⟨middle, rfl, ?_⟩
    intro field member
    rw [item_of_record distinct item member]
    exact (both field member).1 _
  · refine (convert_struct_iff onward proper distinct typed).mpr ⟨item', rfl, ?_⟩
    intro field member
    rw [item_of_record distinct middle member]
    exact (both field member).2 _

theorem plain {members : List Value} {text : String}
    (typed : ∀ member ∈ members, MemberOver table member) (plain : members.all Value.isString = true)
    (known : members.contains (.string text) = true) :
    Trip there back table (.list members) (.string text) (.string text) := by
  have kept : ∀ {w : Way}, w.Local → ∀ path,
      convert w table path (.list members) (.string text) = .ok (.string text) := by
    intro w inner path
    rw [convert_of_enum inner proper typed, if_pos plain]
    exact if_pos known
  exact ⟨.string text, kept forth, kept onward⟩

end Trip

section Tagged

variable {table : TypeTable} {path : String} {members rest : List Value} {whole sent value : Value}
  {tag : String}

theorem item_without_tag {entries : List (Value × Value)} {field : String × Value} :
    itemOf (entries.filter fun (key, _) => !key.same (textKey "tag")) field =
      if field.1 = "tag" then .null else itemOf entries field := by
  rw [itemOf, textKey, Value.get?_without]
  by_cases named : field.1 = "tag"
  · rw [if_pos named, if_pos named]
    rfl
  · rw [if_neg named, if_neg named]
    rfl

theorem item_of_insert {entries : List (Value × Value)} {item : Value} {field : String × Value}
    (other : field.1 ≠ "tag") :
    itemOf (Value.insert entries (textKey "tag") item) field = itemOf entries field := by
  rw [itemOf, textKey, Value.get?_insert, if_neg other]
  rfl

theorem item_of_nulls {entries : List (Value × Value)} (nulls : ∀ entry ∈ entries, entry.2 = .null)
    (field : String × Value) : itemOf entries field = .null := by
  unfold itemOf
  cases found : Value.get? entries (.string field.1) with
  | none => rfl
  | some item =>
    obtain ⟨key, member⟩ := Value.mem_of_get? found
    exact nulls _ member

theorem decode_members_data {convert : Conversion} {received inner : Value} {name : String}
    (matched : taggedData? (.string tag) received = some inner) :
    decodeMembers convert path whole received (.list [.string tag, .string name] :: rest) =
      (convert (path ++ "." ++ tag) (.string name) inner >>= decodedMember (.string tag)) := by
  simp only [decodeMembers, memberPair, parts?, below_text, matched, bind, Except.bind]

theorem tagged_data_list (tag : String) (inner : Value) :
    taggedData? (.string tag) (.list [.string tag, inner]) = some inner := by
  simp only [taggedData?, Value.string_not_same_list, Value.string_same_iff, if_true,
    Bool.false_eq_true, if_false]

theorem tagged_data_tag (tag : String) : taggedData? (.string tag) (.string tag) = some (.mapping []) :=
  if_pos (Value.same_string_iff.mpr rfl)

variable (proper : Proper table) (typed : ∀ member ∈ members, MemberOver table member)
  (mixed : members.all Value.isString = false) {member : Value} (first : First tag members member rest)

include proper typed mixed first

theorem decode_tagged_first [UrlNormaliser]
    (tagged : sent = .string tag ∨ ∃ data, sent = .list [.string tag, data]) :
    convert .decoding table path (.list members) sent =
      decodeMembers (convert .decoding table) path (.list members) sent (member :: rest) := by
  rw [convert_of_enum decoding_local proper typed, mixed, if_neg Bool.false_ne_true]
  change decodeMembers _ _ _ _ _ = _
  rw [decode_members_first first tagged]

theorem encode_tagged_first [UrlNormaliser] (entries : List (Value × Value)) :
    convert .encoding table path (.list members)
        (.mapping (Value.insert entries (textKey "tag") (.string tag))) =
      encodeMembers (convert .encoding table) path (.list members)
        (.mapping (Value.insert entries (textKey "tag") (.string tag))) (.string tag)
        ((Value.insert entries (textKey "tag") (.string tag)).filter fun (key, _) =>
          !key.same (textKey "tag")) (member :: rest) := by
  rw [convert_of_enum encoding_local proper typed, mixed, if_neg Bool.false_ne_true]
  unfold Way.encoding encodeTagged
  dsimp only
  have found : Value.get? (Value.insert entries (textKey "tag") (.string tag)) (textKey "tag") =
      some (.string tag) := by
    rw [textKey, Value.get?_insert, if_pos rfl]
  rw [found]
  dsimp only
  rw [encode_members_first first]

end Tagged

section Data

variable {table : TypeTable} {path : String} {members rest : List Value} {sent : Value} {tag name : String}
  {fields : Table Value} (proper : Proper table) (distinct : fields.keys.Nodup)
  (overFields : ∀ field ∈ fields, TypeOver table field.2)
  (found : Value.get? table (.string name) =
    some (.mapping (fields.map fun field => (.string field.1, field.2))))
  (typed : ∀ member ∈ members, MemberOver table member)
  (mixed : members.all Value.isString = false)
  (first : First tag members (.list [.string tag, .string name]) rest)
  {written out : List (Value × Value)} (joined : encodedMember (.string tag) (.mapping written) = .ok sent)

include proper distinct overFields found typed mixed first joined

/-- What is transmitted for a tag and its data is decoded to the data with the tag in it, whether the
data was left out or not. -/
theorem decode_joined [UrlNormaliser] (decoded : ∀ path,
      convert .decoding table path (.string name) (.mapping written) = .ok (.mapping out)) :
    convert .decoding table path (.list members) sent =
      .ok (.mapping (Value.insert out (textKey "tag") (.string tag))) := by
  obtain ⟨_, ⟨⟩, outcome⟩ := encoded_member_cases joined
  have taken : ∃ inner, taggedData? (.string tag) sent = some inner ∧ ∀ path,
      convert .decoding table path (.string name) inner = .ok (.mapping out) := by
    rcases outcome with ⟨rfl, nulls⟩ | rfl
    · refine ⟨.mapping [], tagged_data_tag tag, fun path => ?_⟩
      rw [← decoded path]
      exact convert_struct_name_congr decoding_local proper distinct overFields found
        fun field _ => (item_of_nulls nulls field).symm
    · exact ⟨.mapping written, tagged_data_list tag _, decoded⟩
  have tagged : sent = .string tag ∨ ∃ data, sent = .list [.string tag, data] := by
    rcases outcome with ⟨rfl, _⟩ | rfl
    · exact .inl rfl
    · exact .inr ⟨_, rfl⟩
  obtain ⟨inner, matched, received⟩ := taken
  rw [decode_tagged_first proper typed mixed first tagged, decode_members_data matched, received]
  rfl

theorem encode_joined [UrlNormaliser] {data : List (Value × Value)}
    (agree : ∀ field ∈ fields, itemOf data field =
      if field.1 = "tag" then .null else itemOf out field)
    (encoded : ∀ path,
      convert .encoding table path (.string name) (.mapping data) = .ok (.mapping written)) :
    convert .encoding table path (.list members)
      (.mapping (Value.insert out (textKey "tag") (.string tag))) = .ok sent := by
  have untagged : ∀ field ∈ fields,
      itemOf ((Value.insert out (textKey "tag") (.string tag)).filter
        fun (key, _) => !key.same (textKey "tag")) field = itemOf data field := by
    intro field member
    rw [item_without_tag, agree field member]
    split
    · rfl
    · next other => rw [item_of_insert other]
  rw [encode_tagged_first proper typed mixed first, encode_members_pair,
    convert_struct_name_congr encoding_local proper distinct overFields found untagged, encoded]
  exact joined

end Data

end ApiSchema.Codec
