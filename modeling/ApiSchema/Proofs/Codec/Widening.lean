import ApiSchema.Compatibility
import ApiSchema.Proofs.Codec.Scalars
import ApiSchema.Proofs.Codec.Sending
import ApiSchema.Proofs.Codec.Taking

/-! Whatever is transmitted for a primitive type is accepted by the types that are wider. -/

namespace ApiSchema.Codec

def Scalar.isTextual : Scalar → Bool
  | .text | .hex | .uuid | .base64 | .url | .bytes | .bigint | .decimal | .date | .datetime => true
  | _ => false

theorem string_like_textual {kind : Primitive} (like : kind ∈ Primitive.stringLike) :
    (scalarOf kind).isTextual = true := by
  cases kind <;> first | rfl | exact absurd like (by decide)

variable {path name : String} {value sent : Value}

theorem encoded_text [UrlNormaliser] {s : Scalar} (textual : s.isTextual = true)
    (encoded : encodeScalar path name s value = .ok sent) : ∃ text, sent = .string text := by
  cases s with
  | bytes =>
    cases value with
    | bytes | buffer =>
      cases encoded
      exact ⟨_, rfl⟩
    | _ => exact absurd encoded mismatch_ne_ok
  | bigint =>
    cases value with
    | int n =>
      simp only [encodeScalar] at encoded
      split at encoded
      · cases encoded
        exact ⟨_, rfl⟩
      · cases encoded
    | _ => exact absurd encoded mismatch_ne_ok
  | decimal =>
    simp only [encodeScalar] at encoded
    split at encoded
    · split at encoded
      · cases encoded
        exact ⟨_, rfl⟩
      · exact absurd encoded mismatch_ne_ok
    · split at encoded
      · cases encoded
      · cases encoded
        exact ⟨_, rfl⟩
    · obtain ⟨d, _, written⟩ := bind_ok_iff.mp encoded
      cases written
      exact ⟨_, rfl⟩
  | date =>
    obtain ⟨d, _, written⟩ := bind_ok_iff.mp encoded
    cases written
    exact ⟨_, rfl⟩
  | datetime =>
    rw [encode_datetime] at encoded
    obtain ⟨t, _, written⟩ := bind_ok_iff.mp encoded
    obtain ⟨u, _, written⟩ := bind_ok_iff.mp written
    cases written
    exact ⟨_, rfl⟩
  | text | hex | uuid | base64 | url =>
    have shared := or_mismatch_ok.mp encoded
    cases value with
    | string text =>
      first
      | cases shared
        exact ⟨_, rfl⟩
      | obtain ⟨_, same⟩ := Option.ite_none_right_eq_some.mp shared
        cases same
        exact ⟨_, rfl⟩
      | obtain ⟨_, _, same⟩ := Option.map_eq_some_iff.mp shared
        cases same
        exact ⟨_, rfl⟩
    | _ => cases shared
  | _ => cases textual

theorem accepts_text [UrlNormaliser] (text : String) : Accepts .string (.string text) :=
  ⟨nofun, fun _ => ⟨_, rfl⟩⟩

theorem scalar_void {kind : Primitive} (void : scalarOf kind = .void) : kind = .void := by
  cases kind <;> first | rfl | cases void

theorem accepts_self [urls : UrlNormaliser] (stable : urls.Stable) {kind : Primitive}
    (transmits : Transmits kind sent) : Accepts kind sent := by
  obtain ⟨path, value, sound, null, encoded⟩ := transmits
  constructor
  · rintro rfl
    rcases null_of_encode encoded with void | rfl
    · exact scalar_void void
    · exact null rfl
  · obtain ⟨value', decoded, _⟩ := rewritten_of_encode (sound _ (Value.self_mem_parts _)) stable encoded
    exact fun path => ⟨value', decoded path _⟩

theorem whole_within {least greatest : Int} : ((wholeNumber? value).bind fun n =>
      if least ≤ n ∧ n ≤ greatest then some value else none) = some sent ↔
    sent = value ∧ ∃ n, wholeNumber? value = some n ∧ least ≤ n ∧ n ≤ greatest := by
  simp only [Option.bind_eq_some_iff, Option.ite_none_right_eq_some, Option.some.injEq]
  constructor
  · rintro ⟨n, whole, range, rfl⟩
    exact ⟨rfl, n, whole, range⟩
  · rintro ⟨rfl, n, whole, range⟩
    exact ⟨n, whole, range, rfl⟩

theorem encoded_int [UrlNormaliser] (encoded : encodeScalar path name .int value = .ok sent) :
    ∃ n, wholeNumber? sent = some n ∧ leastInt ≤ n ∧ n ≤ greatestInt := by
  obtain ⟨rfl, within⟩ := whole_within.mp (or_mismatch_ok.mp encoded)
  exact within

theorem encoded_uint [UrlNormaliser] (encoded : encodeScalar path name .uint value = .ok sent) :
    ∃ n, wholeNumber? sent = some n ∧ 0 ≤ n ∧ n ≤ greatestInt := by
  obtain ⟨rfl, within⟩ := whole_within.mp (or_mismatch_ok.mp encoded)
  exact within

theorem encoded_money [UrlNormaliser] (encoded : encodeScalar path name .money value = .ok sent) :
    ∃ n, wholeNumber? sent = some n := by
  obtain ⟨n, whole, same⟩ := Option.map_eq_some_iff.mp (or_mismatch_ok.mp encoded)
  exact ⟨n, same ▸ whole⟩

section Whole

variable {n : Int}

theorem whole_ne_null (whole : wholeNumber? sent = some n) : sent ≠ .null := by
  rintro rfl
  cases whole

variable [UrlNormaliser]

theorem accepts_int (whole : wholeNumber? sent = some n) (range : leastInt ≤ n ∧ n ≤ greatestInt) :
    Accepts .int sent :=
  ⟨fun null => absurd null (whole_ne_null whole),
    fun _ => ⟨sent, or_mismatch_ok.mpr (whole_within.mpr ⟨rfl, n, whole, range⟩)⟩⟩

theorem accepts_uint (whole : wholeNumber? sent = some n) (range : 0 ≤ n ∧ n ≤ greatestInt) :
    Accepts .uint sent :=
  ⟨fun null => absurd null (whole_ne_null whole),
    fun _ => ⟨sent, or_mismatch_ok.mpr (whole_within.mpr ⟨rfl, n, whole, range⟩)⟩⟩

theorem accepts_bigint (whole : wholeNumber? sent = some n) : Accepts .bigint sent := by
  refine ⟨fun null => absurd null (whole_ne_null whole), fun path => ⟨.int n, ?_⟩⟩
  cases sent with
  | int | float =>
    simp only [scalarOf, decodeScalar, whole]
    rfl
  | _ => cases whole

theorem accepts_float (whole : wholeNumber? sent = some n) : Accepts .float sent := by
  refine ⟨fun null => absurd null (whole_ne_null whole), fun path => ⟨sent, ?_⟩⟩
  cases sent with
  | int | float => rfl
  | _ => cases whole

end Whole

theorem accepts_base64 [UrlNormaliser] (encoded : encodeScalar path name .bytes value = .ok sent) :
    Accepts .base64 sent := by
  cases value with
  | bytes content | buffer content =>
    cases encoded
    have read : Base64.decode? (String.ofList (Base64.encode content)).toList = some content := by
      rw [String.toList_ofList, Base64.decode_encode]
    exact ⟨nofun, fun path => ⟨.string (String.ofList (Base64.encode content)),
      or_mismatch_ok.mpr (Option.map_eq_some_iff.mpr ⟨content, read, rfl⟩)⟩⟩
  | _ => exact absurd encoded mismatch_ne_ok

/-- A whole number that the type of a range has no room for. -/
def Exceeds (kind : Primitive) (sent : Value) : Prop := ∃ n, wholeNumber? sent = some n ∧
  (kind = .int ∧ ¬ (leastInt ≤ n ∧ n ≤ greatestInt) ∨ kind = .uint ∧ ¬ (0 ≤ n ∧ n ≤ greatestInt))

theorem accepts_of_widens [UrlNormaliser] {k l : Primitive} (widens : k.widensTo l = true)
    (moneyless : k ≠ .money)
    (encoded : encodeScalar path name (scalarOf k) value = .ok sent) : Accepts l sent := by
  rw [Primitive.widensTo, Bool.or_eq_true, Bool.and_eq_true, beq_iff_eq,
    List.contains_iff_mem, List.contains_iff_mem] at widens
  rcases widens with ⟨rfl, like⟩ | wider
  · obtain ⟨text, rfl⟩ := encoded_text (string_like_textual like) encoded
    exact accepts_text text
  · cases k with
    | uint =>
      obtain ⟨n, whole, range⟩ := encoded_uint encoded
      simp only [Primitive.wider, List.mem_cons, List.not_mem_nil, or_false] at wider
      rcases wider with rfl | rfl
      · exact accepts_int whole ⟨Int.le_trans (by decide) range.1, range.2⟩
      · exact accepts_bigint whole
    | int =>
      obtain ⟨n, whole, range⟩ := encoded_int encoded
      simp only [Primitive.wider, List.mem_cons, List.not_mem_nil, or_false] at wider
      rcases wider with rfl | rfl
      · exact accepts_float whole
      · exact accepts_bigint whole
    | bytes =>
      simp only [Primitive.wider, List.mem_singleton] at wider
      rw [wider]
      exact accepts_base64 encoded
    | money => exact absurd rfl moneyless
    | _ => cases wider

theorem refused_of_exceeds [UrlNormaliser] {kind : Primitive} (exceeds : Exceeds kind sent)
    (taken : Value) :
    decodeScalar path kind.name (scalarOf kind) sent ≠ .ok taken := by
  intro decoded
  obtain ⟨n, whole, ⟨rfl, beyond⟩ | ⟨rfl, beyond⟩⟩ := exceeds <;>
  · obtain ⟨_, m, whole', within⟩ := whole_within.mp (or_mismatch_ok.mp decoded)
    obtain rfl : n = m := Option.some.inj (whole.symm.trans whole')
    exact beyond within

theorem accepts_money [UrlNormaliser] {l : Primitive} (widens : Primitive.money.widensTo l = true)
    (within : ¬ Exceeds l sent) (encoded : encodeScalar path name .money value = .ok sent) :
    Accepts l sent := by
  obtain ⟨n, whole⟩ := encoded_money encoded
  have wider : l = .int ∨ l = .uint ∨ l = .bigint := by
    simpa [Primitive.widensTo, Primitive.stringLike, Primitive.wider] using widens
  rcases wider with rfl | rfl | rfl
  · exact accepts_int whole (by simpa [Exceeds, whole] using within)
  · exact accepts_uint whole (by simpa [Exceeds, whole] using within)
  · exact accepts_bigint whole

theorem accepts_of_transmits [urls : UrlNormaliser] (stable : urls.Stable) {k l : Primitive}
    (widens : k = l ∨ k.widensTo l = true)
    (moneyless : k ≠ .money) (transmits : Transmits k sent) : Accepts l sent := by
  rcases widens with rfl | widens
  · exact accepts_self stable transmits
  · obtain ⟨path, value, _, _, encoded⟩ := transmits
    exact accepts_of_widens widens moneyless encoded

/-! What is encoded for a type is decoded for every type that it widens to, unless it is money that
exceeds the range of the wider type. -/

/-- How users of a table give the type of a base: scalar types by their names, enums by their
members or by a name with an entry. -/
inductive Written (s : Schema) (table : TypeTable) : TypeBase → Value → Prop where
  | primitive (kind : Primitive) : Written s table (.primitive kind) (.string kind.name)
  | members (e : EnumId) : Written s table (.enum e) (enumType s e)
  | name {e : EnumId} {name : String} (plain : TypeText.peel? name = none ∧ Scalar.ofName? name = none)
    (entry : Value.get? table (.string name) = some (enumType s e)) :
    Written s table (.enum e) (.string name)

variable {s : Schema} {table : TypeTable} {w : Way} {type : Value} {narrow wide : TypeBase}

theorem text_of_enum [UrlNormaliser] {e : EnumId} (bare : (s.enum e).values.all (·.data.isNone) = true)
    (written : Written s table (.enum e) type) (encoded : encode table path type value = .ok sent) :
    ∃ text, sent = .string text := by
  have strings : ((s.enum e).values.map (memberType s)).all Value.isString = true := by
    simpa [List.all_map, Function.comp_def, member_is_string] using bare
  have member : ∀ {fuel}, convertWithin .encoding table (fuel + 1) path (enumType s e) value = .ok sent →
      ∃ text, sent = .string text := by
    intro fuel encoded
    rw [convert_within_succ, convert_enum, if_pos strings] at encoded
    cases value with
    | string text =>
      simp only [convertPlainEnum] at encoded
      split at encoded
      · cases encoded
        exact ⟨text, rfl⟩
      · exact absurd encoded refuse_ne_ok
    | _ => exact absurd encoded refuse_ne_ok
  obtain ⟨fuel, room⟩ := exists_room table type value
  rw [encode, convert, room] at encoded
  cases written with
  | members => exact member encoded
  | name plain entry =>
    rw [convert_within_succ, convert_entry plain entry (by simp [enumType])] at encoded
    obtain ⟨_, _, encoded⟩ := bind_ok_iff.mp encoded
    exact member encoded

theorem not_void_of_wider {k : Primitive} (widens : k.widensTo .void = true) : False := by
  cases k <;> cases widens

/-- What is encoded for a type is decoded for one that it widens to, wherever the two types are given,
unless it is money and exceeds the range of the wider type. -/
theorem widening_conveys [UrlNormaliser] {before after : TypeTable} {type' : Value}
    (widens : s.widens narrow wide = true)
    (written : Written s before narrow type) (written' : Written s after wide type')
    (encoded : encode before path type value = .ok sent) (place : String) :
    (∃ taken, decode after place type' sent = .ok taken) ↔
      ¬ (narrow = .primitive .money ∧ ∃ kind, wide = .primitive kind ∧ Exceeds kind sent) := by
  cases narrow with
  | enum e =>
    have text : wide = .primitive .string ∧ (s.enum e).values.all (·.data.isNone) = true := by
      cases wide with
      | primitive kind => cases kind <;> first | exact ⟨rfl, widens⟩ | cases widens
      | _ => cases widens
    obtain ⟨rfl, bare⟩ := text
    obtain ⟨text, rfl⟩ := text_of_enum bare written encoded
    cases written'
    have present : Value.string text ≠ .null := nofun
    simp [decode_scalar present, (accepts_text text).2]
  | primitive k =>
    cases wide with
    | primitive l =>
      cases written
      cases written'
      rw [encode, convert_scalar] at encoded
      obtain ⟨_, _, encoded⟩ := bind_ok_iff.mp encoded
      have decoded : Accepts l sent → ∃ taken, decode after place (.string l.name) sent = .ok taken := by
        intro accepts
        have present : sent ≠ .null := fun null =>
          not_void_of_wider (accepts.1 null ▸ widens)
        rw [decode_scalar present]
        exact accepts.2 place
      by_cases money : k = .money
      · subst money
        have present := (encoded_money encoded).elim fun n => whole_ne_null
        by_cases exceeds : Exceeds l sent
        · simp [exceeds, decode_scalar present, refused_of_exceeds exceeds]
        · simp [exceeds, decoded (accepts_money widens exceeds encoded)]
      · simp [money, decoded (accepts_of_widens widens money encoded)]
    | _ => cases widens
  | _ => cases widens

theorem change_conveyed : ∃ _ : UrlNormaliser,
    Schema.widens {} (.primitive .money) (.primitive .uint) = true ∧
    ∃ taken, decode [] "paid" (.string "uint") (.int 250) = .ok taken := by
  let urls : UrlNormaliser := .refusing
  have widens : Schema.widens {} (.primitive .money) (.primitive .uint) = true := by decide
  have encoded : encode [] "paid" (.string "money") (.int 250) = .ok (.int 250) := by rfl
  have within : ¬ Exceeds .uint (.int 250) := by simp [Exceeds, wholeNumber?, greatestInt]
  refine ⟨urls, widens, ?_⟩
  refine (widening_conveys widens (.primitive .money) (.primitive .uint) encoded "paid").mpr ?_
  rintro ⟨_, kind, same, exceeds⟩
  cases same
  exact within exceeds

/-- Money widens to integers of a range, which do not decode larger amounts or debts. -/
theorem money_refused : ∃ _ : UrlNormaliser,
    Primitive.money.widensTo .int = true ∧ Primitive.money.widensTo .uint = true ∧
      encode [] "paid" (.string "money") (.int 3000000000) = .ok (.int 3000000000) ∧
      (decode [] "paid" (.string "int") (.int 3000000000)).isOk = false ∧
      encode [] "paid" (.string "money") (.int (-1)) = .ok (.int (-1)) ∧
      (decode [] "paid" (.string "uint") (.int (-1))).isOk = false := by
  exact ⟨.refusing, by decide, by decide, by rfl, by rfl, by rfl, by rfl⟩

end ApiSchema.Codec
