import ApiSchema.Proofs.Codec.Trip
import ApiSchema.Proofs.Document.Proper

/-! Decoded values are encoded again, and what is encoded is decoded to the same values, but for
what is cut off of times and for the forms of decimals. -/

namespace ApiSchema

namespace Value

mutual

/-- The second value is what the first one is after another transmission: its times are cut to the
millisecond, and its decimals are the same numbers. -/
inductive Alike : Value → Value → Prop where
  | same {value} : Alike value value
  | decimal {d e : Decimal} (equal : sameNumber (.decimal d) (.decimal e) = true) :
    Alike (.decimal d) (.decimal e)
  | timestamp (t : Timestamp) :
    Alike (.timestamp t) (.timestamp { t with microsecond := t.microsecond / 1000 * 1000 })
  | list {items others} (each : List.Forall₂ Alike items others) : Alike (.list items) (.list others)
  | mapping {entries others} (each : List.Forall₂ AlikeEntries entries others) :
    Alike (.mapping entries) (.mapping others)

inductive AlikeEntries : Value × Value → Value × Value → Prop where
  | entry {key item other} (items : Alike item other) : AlikeEntries (key, item) (key, other)

end

theorem Alike.null_iff {value other : Value} (alike : Alike value other) :
    value = .null ↔ other = .null := by
  cases alike <;> simp

theorem alike_insert {entries others : List (Value × Value)} {key : String}
    (each : List.Forall₂ (fun entry other => entry.1 = other.1 ∧
      (entry.1 ≠ .string key → Alike entry.2 other.2)) entries others) (item : Value) :
    Alike (.mapping (insert entries (.string key) item)) (.mapping (insert others (.string key) item)) := by
  have keys : ∀ {test : Value × Value → Bool}, (∀ k i i', test (k, i) = test (k, i')) →
      entries.any test = others.any test := by
    intro test blind
    induction each with
    | nil => rfl
    | @cons entry other _ _ own _ ih =>
      obtain ⟨k, i⟩ := entry
      obtain ⟨k', i'⟩ := other
      obtain ⟨rfl, _⟩ := own
      rw [List.any_cons, List.any_cons, ih, blind]
  refine .mapping ?_
  unfold insert
  rw [keys fun _ _ _ => rfl]
  split
  · rw [List.forall₂_map_left_iff, List.forall₂_map_right_iff]
    refine each.imp ?_
    rintro ⟨k, i⟩ ⟨k', i'⟩ ⟨rfl, alike⟩
    dsimp only
    split
    · exact .entry .same
    · next other => exact .entry (alike fun same => other (same_string_iff.mpr same))
  · next unknown =>
    rw [← keys fun _ _ _ => rfl] at unknown
    refine List.rel_append ?_ (.cons (.entry .same) .nil)
    have absent : ∀ entry ∈ entries, entry.1 ≠ .string key := by
      intro entry member same
      exact unknown (List.any_eq_true.mpr ⟨entry, member, same_string_iff.mpr same⟩)
    clear keys unknown
    induction each with
    | nil => exact .nil
    | @cons entry other _ _ own _ ih =>
      obtain ⟨k, i⟩ := entry
      obtain ⟨k', i'⟩ := other
      obtain ⟨rfl, alike⟩ := own
      exact .cons (.entry (alike (absent _ (List.mem_cons_self ..))))
        (ih fun entry member => absent entry (List.mem_cons_of_mem _ member))

end Value

theorem Decimal.same_positional (d : Decimal) (finite : d.isFinite = true) :
    Value.sameNumber (.decimal d) (.decimal d.positional) = true := by
  cases d with
  | infinity | nan => cases finite
  | finite negative coefficient exponent =>
    rw [positional]
    split
    · next above =>
      simp only [Value.sameNumber, Value.quotient?, quotient, if_neg (Int.not_lt.mpr above),
        Int.natAbs_zero, power_zero, Nat.mul_one, Int.lt_irrefl, if_false]
      rw [show power 10 exponent.natAbs = 10 ^ exponent.toNat by
        rw [show exponent.natAbs = exponent.toNat by omega]
        rfl]
      exact beq_self_eq_true _
    · simp [Value.sameNumber, Value.quotient?]

namespace Codec

section Scalars

variable {path name : String} {received value : Value}

theorem short_of_float {x : Binary64} {n : Int} (canonical : x.IsCanonical)
    (whole : x.toInt? = some n) : exceedsDigitLimit (digitsOf n.natAbs).length = false := by
  cases x with
  | nan | infinity => cases whole
  | finite negative mantissa exponent =>
    obtain ⟨small, least, greatest, _⟩ := canonical
    have numerator : (Binary64.quotient mantissa exponent).1 < 10 ^ (53 + exponent.natAbs) := by
      have ten : ∀ k, 2 ^ k ≤ 10 ^ k := fun k => Nat.pow_le_pow_left (by decide) k
      have least := Nat.lt_of_lt_of_le small (ten 53)
      rw [Nat.pow_add]
      unfold Binary64.quotient
      split
      · exact Nat.lt_of_lt_of_le least (Nat.le_mul_of_pos_right _ (by positivity))
      · exact Nat.mul_lt_mul_of_lt_of_le least (ten _) (Nat.pow_pos (by decide))
    have absolute : n.natAbs = (Binary64.quotient mantissa exponent).1 /
        (Binary64.quotient mantissa exponent).2 := by
      simp only [Binary64.toInt?] at whole
      split at whole
      · cases whole
        split <;> simp only [Int.natAbs_neg, Int.natAbs_natCast]
      · cases whole
    have bound : n.natAbs < 10 ^ (53 + exponent.natAbs) := by
      rw [absolute]
      exact Nat.lt_of_le_of_lt (Nat.div_le_self ..) numerator
    have short := digits_of_length_le (by omega) bound
    simp only [exceedsDigitLimit, decide_eq_false_iff_not]
    unfold Binary64.leastExponent at least
    unfold Binary64.greatestExponent at greatest
    omega

theorem short_of_bigint [UrlNormaliser] (legible : Json.Legible received)
    (decoded : decodeScalar path name .bigint received = .ok value) :
    ∃ n : Int, value = .int n ∧ exceedsDigitLimit (digitsOf n.natAbs).length = false := by
  cases legible with
  | @string text =>
    simp only [decodeScalar] at decoded
    split at decoded
    · exact absurd decoded mismatch_ne_ok
    · next integer =>
      split at decoded
      · cases decoded
      · next fits =>
        have fits := Bool.not_eq_true _ ▸ fits
        have integer := of_not_not integer
        simp only [isIntegerText, Bool.and_eq_true, Bool.not_eq_eq_eq_not, Bool.not_true,
          List.isEmpty_eq_false_iff] at integer
        have number : ∀ {digits : List Char}, digits ≠ [] → digits.all isDigit = true →
            (digits.filter isDigit).length = (text.toList.filter isDigit).length →
              exceedsDigitLimit (digitsOf (digitsValue digits)).length = false := by
          intro digits present all same
          rw [List.filter_eq_self.mpr (List.all_eq_true.mp all)] at same
          refine short_of_digits present all ?_
          rw [same]
          exact fits
        split at decoded
        · next digits signed =>
          cases decoded
          simp only [signed, List.head?_cons, if_true, List.drop_one, List.tail_cons] at integer
          refine ⟨_, rfl, ?_⟩
          rw [Int.natAbs_neg, Int.natAbs_natCast]
          exact number integer.1 integer.2 (by rw [signed]; rfl)
        · next unsigned =>
          cases decoded
          have first : ¬ text.toList.head? = some '-' := by
            intro first
            obtain ⟨rest, written⟩ := List.head?_eq_some_iff.mp first
            exact unsigned _ written
          simp only [first, if_false] at integer
          refine ⟨_, rfl, ?_⟩
          rw [Int.natAbs_natCast]
          exact number integer.1 integer.2 rfl
  | int short =>
    cases decoded
    exact ⟨_, rfl, short⟩
  | float canonical =>
    obtain ⟨n, whole, same⟩ := bind_ok_iff.mp decoded
    cases same
    exact ⟨n, rfl, short_of_float canonical (or_mismatch_ok.mp whole)⟩
  | _ =>
    obtain ⟨n, whole, _⟩ := bind_ok_iff.mp decoded
    cases or_mismatch_ok.mp whole

theorem scalar_returns [urls : UrlNormaliser] {s : Scalar} (legible : Json.Legible received)
    (stable : urls.Stable) (decoded : decodeScalar path name s received = .ok value) :
    ∃ again, value.Alike again ∧
      ∃ sent, (∀ path name, encodeScalar path name s value = .ok sent) ∧
        ∀ path name, decodeScalar path name s sent = .ok again := by
  have returned : ∀ {sent}, FormOf s value sent → ∃ again, value.Alike again ∧
      ∃ sent, (∀ path name, encodeScalar path name s value = .ok sent) ∧
        ∀ path name, decodeScalar path name s sent = .ok again :=
    fun form => ⟨value, .same, _, form.2, form.1⟩
  cases s with
  | bytes =>
    cases received with
    | string text =>
      obtain ⟨content, _, same⟩ := bind_ok_iff.mp decoded
      cases same
      exact returned (bytes_form content)
    | _ => exact absurd decoded mismatch_ne_ok
  | bigint =>
    obtain ⟨n, rfl, short⟩ := short_of_bigint legible decoded
    have written : Json.intText? n = some (toString n) := by simp [Json.intText?, short]
    exact returned (bigint_form written)
  | decimal =>
    have finite : ∃ d : Decimal, d.isFinite = true ∧ value = .decimal d := by
      simp only [decodeScalar] at decoded
      split at decoded
      · split at decoded
        · cases decoded
        · cases decoded
          exact ⟨_, rfl, rfl⟩
      · obtain ⟨d, found, same⟩ := bind_ok_iff.mp decoded
        cases same
        exact ⟨d, decimal_of_finite (or_mismatch_ok.mp found), rfl⟩
    obtain ⟨d, finite, rfl⟩ := finite
    refine ⟨.decimal d.positional, .decimal (d.same_positional finite), .string d.plainText,
      fun path name => ?_, (decimal_form finite).1⟩
    simp only [encodeScalar, finite, if_true]
  | date =>
    obtain ⟨d, found, same⟩ := bind_ok_iff.mp decoded
    cases same
    have dated : received.isDated = true := by cases legible <;> rfl
    exact returned (date_form (date_of_valid dated (or_mismatch_ok.mp found)))
  | datetime =>
    obtain ⟨t, found, converted⟩ := bind_ok_iff.mp decoded
    obtain ⟨u, moved, same⟩ := bind_ok_iff.mp converted
    cases same
    have valid : t.isValid = true := by
      cases legible with
      | string => exact Timestamp.valid_of_text (or_mismatch_ok.mp found)
      | _ => cases or_mismatch_ok.mp found
    obtain ⟨valid, zone⟩ := Timestamp.universal_valid valid (universal_ok.mp moved)
    have cut : Codec.received u = { u with microsecond := u.microsecond / 1000 * 1000 } := by
      simp only [Codec.received, Timestamp.truncated, zone]
    have kept : universal u = .ok u := by
      rw [universal_ok, Timestamp.universal_self valid (by rw [zone]; rfl), ← zone]
    refine ⟨.timestamp (Codec.received u), cut ▸ .timestamp u, .string u.millisecondText,
      fun path name => ?_, (datetime_form valid).1⟩
    simp only [encodeScalar, pure, Except.pure, bind, Except.bind, kept]
  | void =>
    cases decoded
    exact returned ⟨fun _ _ => rfl, fun _ _ => rfl⟩
  | _ =>
    exact returned (shared_form stable (fun _ _ => rfl) (fun _ _ => rfl) (or_mismatch_ok.mp decoded))

end Scalars

/-- A type that takes null. -/
def TakesNull (table : TypeTable) (type : Value) : Prop :=
  ∃ name, type = .string name ∧ admitsNull table name = true

/-- Types that leave room for tags: no two members of an enum have one tag, and a field of the data
of a member takes null if it has the name under which the tag is put among the fields. -/
inductive Roomy (table : TypeTable) : Value → Prop where
  | name (text : String) : Roomy table (.string text)
  | enum {members} (typed : ∀ member ∈ members, MemberOver table member)
    (distinct : members.Pairwise fun member other => ∀ tag, Tags member tag → ¬ Tags other tag)
    (room : ∀ {tag name fields type}, .list [.string tag, .string name] ∈ members →
      Value.get? table (.string name) = some (.mapping fields) → (.string "tag", type) ∈ fields →
        TakesNull table type) : Roomy table (.list members)
  | struct {fields : Table Value} (distinct : fields.keys.Nodup)
    (each : ∀ field ∈ fields, Roomy table field.2) :
    Roomy table (.mapping (fields.map fun field => (.string field.1, field.2)))

theorem Roomy.typed {table : TypeTable} {type : Value} (roomy : Roomy table type) :
    TypeOver table type := by
  induction roomy with
  | name text => exact .name text
  | enum typed => exact .enum typed
  | struct distinct _ ih => exact .struct distinct ih

section Legible

variable {value : Value} (legible : Json.Legible value)

include legible

theorem legible_item {items : List Value} (listed : value = .list items ∨ value = .tuple items)
    {item : Value} (member : item ∈ items) : Json.Legible item := by
  rcases listed with rfl | rfl
  · cases legible with
    | list each => exact each item member
  · cases legible

theorem legible_entry {entries : List (Value × Value)} (same : value = .mapping entries)
    (key : Value) : Json.Legible ((Value.get? entries key).getD .null) := by
  subst same
  cases legible with
  | mapping _ each =>
    cases found : Value.get? (Json.keyed _) key with
    | none => exact .null
    | some item =>
      obtain ⟨own, present⟩ := Value.mem_of_get? found
      obtain ⟨member, listed, same⟩ := List.mem_map.mp present
      cases same
      exact each member listed

theorem tagged_data_legible {tag : String} {inner : Value}
    (matched : taggedData? (.string tag) value = some inner) : Json.Legible inner := by
  rcases received_cases matched with ⟨_, rfl⟩ | rfl
  · have empty : Json.LegibleEntries [] := ⟨[], rfl, .nil, nofun⟩
    exact empty.mapping
  · exact legible_item legible (.inl rfl) (.tail _ (.head _))

end Legible

section Tagged

variable {table : TypeTable} {path : String} {members rest : List Value} {whole received value : Value}
  {tag : String}

theorem first_of_decoded {convert : Conversion} (typed : ∀ member ∈ members, MemberOver table member)
    (distinct : members.Pairwise fun member other => ∀ tag, Tags member tag → ¬ Tags other tag)
    (decoded : decodeMembers convert path whole received members = .ok value) :
    ∃ tag member rest, First tag members member rest ∧
      (member = .string tag ∧ value = .mapping [(textKey "tag", .string tag)] ∨
        ∃ name inner data, member = .list [.string tag, .string name] ∧
          taggedData? (.string tag) received = some inner ∧
          convert (path ++ "." ++ tag) (.string name) inner = .ok data ∧
          decodedMember (.string tag) data = .ok value) := by
  induction members with
  | nil => exact absurd decoded refuse_ne_ok
  | cons member others ih =>
    obtain ⟨apart, distinct⟩ := List.pairwise_cons.mp distinct
    have later := ih (fun other listed => typed other (List.mem_cons_of_mem _ listed)) distinct
    obtain ⟨own, shape⟩ := (typed member (List.mem_cons_self ..)).shape
    have further : decodeMembers convert path whole received others = .ok value →
        ∃ tag found rest, First tag (member :: others) found rest ∧
          (found = .string tag ∧ value = .mapping [(textKey "tag", .string tag)] ∨
            ∃ name inner data, found = .list [.string tag, .string name] ∧
              taggedData? (.string tag) received = some inner ∧
              convert (path ++ "." ++ tag) (.string name) inner = .ok data ∧
              decodedMember (.string tag) data = .ok value) := by
      intro decoded
      obtain ⟨tag, found, rest, first, outcome⟩ := later decoded
      have unlike : own ≠ tag := by
        rintro rfl
        exact apart found first.mem.1 own shape first.mem.2
      exact ⟨tag, found, rest, .later shape unlike first, outcome⟩
    rcases shape with rfl | ⟨name, rfl⟩
    · rw [decode_members_bare] at decoded
      split at decoded
      · cases decoded
        exact ⟨own, _, others, .here (.inl rfl), .inl ⟨rfl, rfl⟩⟩
      · exact further decoded
    · rw [decode_members_pair] at decoded
      split at decoded
      · next inner matched =>
        obtain ⟨data, converted, joined⟩ := bind_ok_iff.mp decoded
        exact ⟨own, _, others, .here (.inr ⟨name, rfl⟩),
          .inr ⟨name, inner, data, rfl, matched, converted, joined⟩⟩
      · exact further decoded

/-- What is decoded of a value is encoded, and that is decoded to what is alike. -/
def Returns [UrlNormaliser] (table : TypeTable) (type value : Value) : Prop :=
  ∃ again, value.Alike again ∧ Trip .encoding .decoding table type value again

variable (proper : Proper table) (typed : ∀ member ∈ members, MemberOver table member)
  (mixed : members.all Value.isString = false)

include proper typed mixed

theorem returns_bare [UrlNormaliser] (first : First tag members (.string tag) rest) :
    Returns table (.list members) (.mapping [(textKey "tag", .string tag)]) := by
  refine ⟨_, .same, .string tag, fun path => ?_, fun path => ?_⟩
  · exact (encode_tagged_first proper typed mixed first []).trans encode_members_bare
  · rw [decode_tagged_first proper typed mixed first (.inl rfl), decode_members_bare,
      if_pos (Value.same_string_iff.mpr rfl)]

theorem returns_data [UrlNormaliser] {fields : Table Value} {name : String}
    (distinct : fields.keys.Nodup)
    (overFields : ∀ field ∈ fields, TypeOver table field.2)
    (found : Value.get? table (.string name) =
      some (.mapping (fields.map fun field => (.string field.1, field.2))))
    (first : First tag members (.list [.string tag, .string name]) rest)
    (room : ∀ field ∈ fields, field.1 = "tag" → TakesNull table field.2)
    {item : String × Value → Value} (each : ∀ field ∈ fields, Returns table field.2 (item field)) :
    Returns table (.list members)
      (.mapping (Value.insert (recordOf fields item) (textKey "tag") (.string tag))) := by
  choose! again returned using each
  let untagged (item : String × Value → Value) (field : String × Value) : Value :=
    if field.1 = "tag" then .null else item field
  have trip : Trip .encoding .decoding table
      (.mapping (fields.map fun field => (.string field.1, field.2)))
      (.mapping (recordOf fields (untagged item))) (.mapping (recordOf fields (untagged again))) := by
    refine .record encoding_local decoding_local proper distinct overFields fun field member => ?_
    by_cases named : field.1 = "tag"
    · obtain ⟨name, same, admits⟩ := room field member named
      simp only [untagged, if_pos named, same]
      have nullable := (admits_null_iff proper.plain).mp admits
      exact ⟨.null, fun _ => null_converted (fun _ _ => rfl) proper.plain nullable,
        fun _ => null_converted (fun _ _ => rfl) proper.plain nullable⟩
    · simp only [untagged, if_neg named]
      exact (returned field member).2
  obtain ⟨middle, encoded, decoded⟩ := trip
  obtain ⟨written, rfl, _⟩ :=
    (convert_struct_iff encoding_local proper distinct overFields).mp (encoded "")
  have byName : ∀ {w : Way}, w.Local → ∀ (entries : List (Value × Value)) path,
      convert w table path (.string name) (.mapping entries) =
        convert w table path (.mapping (fields.map fun field => (.string field.1, field.2)))
          (.mapping entries) :=
    fun inner entries path => convert_of_struct_name inner proper found
  obtain ⟨sent, joined⟩ : ∃ sent, encodedMember (.string tag) (.mapping (recordOf fields written)) =
      .ok sent := ⟨_, rfl⟩
  refine ⟨.mapping (Value.insert (recordOf fields (untagged again)) (textKey "tag") (.string tag)),
    ?_, sent, fun path => ?_, fun path => ?_⟩
  · refine Value.alike_insert ?_ _
    rw [recordOf, recordOf, List.forall₂_map_left_iff, List.forall₂_map_right_iff]
    refine List.forall₂_same.mpr fun field member => ⟨rfl, fun other => ?_⟩
    have other : field.1 ≠ "tag" := fun same => other (by rw [same])
    simp only [untagged, if_neg other]
    exact (returned field member).1
  · refine encode_joined proper distinct overFields found typed mixed first joined ?_
      fun path => (byName encoding_local _ path).trans (encoded path)
    intro field member
    rw [item_of_record distinct _ member, item_of_record distinct _ member]
  · exact decode_joined proper distinct overFields found typed mixed first joined
      fun path => (byName decoding_local _ path).trans (decoded path)

end Tagged

/-- What is decoded can be sent back: by induction on the fuel, where every form of a type returns
values if what is inside does. -/
theorem returns_within [urls : UrlNormaliser] (stable : urls.Stable) {table : TypeTable}
    (proper : Proper table)
    (roomy : ∀ {name type}, Value.get? table (.string name) = some type → Roomy table type) {n : Nat} :
    ∀ {path type received value}, Roomy table type → Json.Legible received →
      convertWithin .decoding table n path type received = .ok value → Returns table type value := by
  induction n with
  | zero =>
    intro path type received value _ _ failed
    cases failed
  | succ n ih =>
    intro path type received value room legible converted
    have nullable : ∀ name, type = .string name → value = .null → admitsNull table name = true := by
      rintro name rfl rfl
      exact admits_of_null decoding_from_null proper converted
    rw [convert_within_succ] at converted
    obtain ⟨_, -, decoded⟩ := bind_ok_iff.mp converted
    clear converted
    cases room with
    | enum typed distinct room =>
      dsimp only at decoded
      split at decoded
      · next plain =>
        unfold convertPlainEnum at decoded
        split at decoded
        · split at decoded
          · next known =>
            cases decoded
            exact ⟨_, .same, .plain encoding_local decoding_local proper typed plain known⟩
          · exact absurd decoded refuse_ne_ok
        · exact absurd decoded refuse_ne_ok
      · next mixed =>
        have mixed := Bool.eq_false_iff.mpr mixed
        obtain ⟨tag, member, rest, first, outcome⟩ := first_of_decoded typed distinct decoded
        rcases outcome with ⟨rfl, rfl⟩ | ⟨name, inner, data, rfl, matched, taken, joined⟩
        · exact returns_bare proper typed mixed first
        · rcases typed _ first.mem.1 with ⟨_, ⟨⟩⟩ | ⟨_, _, entries, ⟨⟩, found⟩
          cases roomy found with
          | @struct fields distinct each =>
            have overFields : ∀ field ∈ fields, TypeOver table field.2 :=
              fun field member => (each field member).typed
            obtain ⟨entries, item, rfl, rfl, converted⟩ :=
              fields_of_within decoding_local proper overFields found taken
            cases joined
            refine returns_data proper typed mixed distinct overFields found first ?_
              fun field member => ?_
            · intro field member named
              exact room first.mem.1 found (named ▸ List.mem_map_of_mem member)
            · exact ih (each field member)
                (legible_entry (tagged_data_legible legible matched) rfl _) (converted field member)
    | @struct fields distinct each =>
      dsimp only at decoded
      split at decoded
      · next entries =>
        obtain ⟨_, filled, same⟩ := bind_ok_iff.mp decoded
        cases same
        obtain ⟨item, converted, rfl⟩ := convert_fields_iff.mp filled
        have returned : ∀ field ∈ fields, Returns table field.2 (item field) :=
          fun field member => ih (each field member) (legible_entry legible rfl _)
            (converted field member)
        choose! again returned using returned
        refine ⟨.mapping (recordOf fields again), .mapping ?_,
          .record encoding_local decoding_local proper distinct
            (fun field member => (each field member).typed)
            fun field member => (returned field member).2⟩
        rw [recordOf, List.forall₂_map_left_iff, List.forall₂_map_right_iff]
        exact List.forall₂_same.mpr fun field member => .entry (returned field member).1
      · exact absurd decoded refuse_ne_ok
    | name name =>
      have nullable := nullable name rfl
      dsimp only [convertNamed] at decoded
      split at decoded
      · next suffix stem peeled =>
        cases suffix with
        | optional =>
          simp only [convertSuffix] at decoded
          have within : value ≠ .null → Returns table (.string stem) value := by
            intro present
            split at decoded
            · cases decoded
              exact absurd rfl present
            · exact ih (.name stem) legible decoded
          by_cases null : value = .null
          · obtain rfl := null
            exact ⟨.null, .same, .optional encoding_local decoding_local proper decoding_keeps_null
              Iff.rfl peeled fun present => absurd rfl present⟩
          · obtain ⟨again, alike, trip⟩ := within null
            exact ⟨again, alike, .optional encoding_local decoding_local proper decoding_keeps_null
              alike.null_iff peeled fun _ => trip⟩
        | array =>
          simp only [convertSuffix] at decoded
          split at decoded
          · next items =>
            obtain ⟨outs, all, same⟩ := bind_ok_iff.mp decoded
            cases same
            have returned : ∀ out ∈ outs, Returns table (.string stem) out := by
              intro out member
              obtain ⟨item, present, place, converted⟩ := (convert_items_ok all).1 out member
              exact ih (.name stem) (legible_item legible (.inl rfl) present) converted
            choose! again returned using returned
            refine ⟨.list (outs.map again), .list ?_,
              .array encoding_local decoding_local proper peeled ?_⟩
            · rw [List.forall₂_map_right_iff]
              exact List.forall₂_same.mpr fun out member => (returned out member).1
            · rw [List.forall₂_map_right_iff]
              exact List.forall₂_same.mpr fun out member => (returned out member).2
          · cases legible
          · exact absurd decoded mismatch_ne_ok
      · next plain =>
        split at decoded
        · next s scalar =>
          obtain ⟨again, alike, trip⟩ := scalar_returns legible stable decoded
          exact ⟨again, alike, .scalar encoding_local decoding_local proper decoding_keeps_null
            alike.null_iff plain scalar trip nullable⟩
        · split at decoded
          · cases decoded
          · cases decoded
          · next type _ found =>
            obtain ⟨again, alike, trip⟩ := ih (roomy found) legible decoded
            exact ⟨again, alike, .entry encoding_local decoding_local proper decoding_keeps_null
              alike.null_iff found trip nullable⟩

end Codec

/-- No data of a member of an enum needs a field of the name under which the tag is put among the
fields. -/
def Schema.LeavesTags (s : Schema) (table : Codec.TypeTable) : Prop :=
  ∀ e ∈ s.enumOrder, ∀ v ∈ (s.enum e).values, ∀ t ∈ v.data, ∀ id ∈ (s.struct t).fields,
    (s.field id).name = "tag" → Codec.admitsNull table (s.typeName (s.field id).type) = true

instance (s : Schema) (table : Codec.TypeTable) : Decidable (s.LeavesTags table) :=
  inferInstanceAs (Decidable (∀ e ∈ s.enumOrder, ∀ v ∈ (s.enum e).values, ∀ t ∈ v.data,
    ∀ id ∈ (s.struct t).fields, (s.field id).name = "tag" →
      Codec.admitsNull table (s.typeName (s.field id).type) = true))

namespace Codec

variable {final : Schema} {d : Document}

theorem tags_member_type {s : Schema} {v : EnumValue} {tag : String} (tags : Tags (memberType s v) tag) :
    v.text = tag := by
  rcases member_type_shape s v with shape | ⟨name, shape⟩ <;>
    rcases tags with same | ⟨_, same⟩ <;> rw [shape] at same <;> cases same <;> rfl

theorem roomy_enum (describes : Describes d.table final) (leaves : final.LeavesTags d.table)
    {e : EnumId} (listed : e ∈ final.enumOrder) (known : final.Known (.enum e)) :
    Roomy d.table (enumType final e) := by
  have inside : ∀ v ∈ (final.enum e).values, ∀ {t}, v.data = some t → final.Known (.struct t) :=
    fun v written t data => known.reaches (.single (.value written data))
  refine .enum ?_ ?_ ?_
  · intro member listed
    obtain ⟨v, written, rfl⟩ := List.mem_map.mp listed
    unfold memberType
    cases data : v.data with
    | none => exact .inl ⟨v.text, rfl⟩
    | some t => exact .inr ⟨v.text, _, _, rfl, describes.struct (inside v written data)⟩
  · rw [List.pairwise_map]
    refine (List.pairwise_map.mp (describes.values known)).imp ?_
    intro v u apart tag tags tags'
    exact apart ((tags_member_type tags).trans (tags_member_type tags').symm)
  · intro tag name fields type listed' found member
    obtain ⟨v, written, same⟩ := List.mem_map.mp listed'
    unfold memberType at same
    cases data : v.data with
    | none =>
      rw [data] at same
      cases same
    | some t =>
      rw [data] at same
      cases same
      rw [describes.struct (inside v written data)] at found
      cases found
      obtain ⟨id, held, same⟩ := List.mem_map.mp member
      rw [Prod.mk.injEq, Value.string.injEq] at same
      exact ⟨_, same.2.symm, leaves e listed v written t data id held same.1⟩

theorem roomy_text_table {table : TypeTable} {fields : Table String} (distinct : fields.keys.Nodup) :
    Roomy table (Document.textTable fields) := by
  have roomy : Roomy table (.mapping ((fields.map fun field =>
      (field.1, Value.string field.2)).map fun field => (.string field.1, field.2))) := by
    refine .struct ?_ ?_
    · simpa [Table.keys, Function.comp_def] using distinct
    · intro field member
      obtain ⟨_, _, rfl⟩ := List.mem_map.mp member
      exact .name _
  exact roomy

theorem roomy_entry (compiles : final.Compiles d) (unclashed : final.Unclashed)
    (unsuffixed : d.Unsuffixed) (leaves : final.LeavesTags d.table) {name : String} {type : Value}
    (found : Value.get? d.table (.string name) = some type) : Roomy d.table type := by
  have describes := compiles.describes unclashed unsuffixed
  rw [Document.get_table] at found
  obtain ⟨entry, entered, rfl⟩ := Option.map_eq_some_iff.mp found
  rcases compiles.entry_cases entered with ⟨a, _, _, rfl⟩ | ⟨t, _, same⟩ | ⟨e, member, same⟩
  · exact .name _
  · cases same
    have distinct : (final.fieldTexts (final.struct t).fields).keys.Nodup := by
      rw [Schema.field_texts_eq (compiles.distinct_fields.1 t)]
      simpa [Schema.DistinctNames, Table.keys, Schema.fieldText, Function.comp_def] using
        compiles.distinct_fields.1 t
    exact roomy_text_table distinct
  · cases same
    have listed : e ∈ final.enumOrder := by
      simpa [Schema.collected] using member
    rw [Document.enum_value_eq]
    exact roomy_enum describes leaves listed (compiles.collected_known member)

/-- A decoded value is encoded, and what it is encoded to is decoded to the value again, up to what
is cut off of times and the form of decimals. -/
theorem decoded_returns [urls : UrlNormaliser] (stable : urls.Stable) (compiles : final.Compiles d)
    (unclashed : final.Unclashed)
    (unsuffixed : d.Unsuffixed) (leaves : final.LeavesTags d.table) {path : String}
    {type received value : Value} (roomy : Roomy d.table type) (legible : Json.Legible received)
    (decoded : decode d.table path type received = .ok value) :
    ∃ sent again, (∀ place, encode d.table place type value = .ok sent) ∧
      (∀ place, decode d.table place type sent = .ok again) ∧ value.Alike again := by
  obtain ⟨again, alike, sent, encoded, returned⟩ :=
    returns_within stable (compiles.proper unclashed unsuffixed)
      (roomy_entry compiles unclashed unsuffixed leaves) roomy legible decoded
  exact ⟨sent, again, encoded, returned, alike⟩

def letters : String :=
  "type Letter \x7b from: url, sent: datetime, weight: decimal, stamp: Stamp?, copies: Letter[] \x7d
type Stamp enum \x7b paid, marked \x7b tag: string?, value: bigint \x7d \x7d
fn post(letter: Letter)"

def postedLetter : String :=
  "\x7b\"from\": \"HTTP://post.example\", \"sent\": \"2024-02-29T23:30:00.1239-01:00\", \"weight\": 2.5e22,
\"stamp\": [\"marked\", \x7b\"tag\": \"old\", \"value\": 7.0\x7d], \"copies\": []\x7d"

theorem letter_returns : ∃ urls : UrlNormaliser, urls.Stable ∧
    ∃ final d given value, Schema.Compiles final d ∧
    Json.read? postedLetter = some given ∧
      decode d.table "letter" (.string "Letter") given = .ok value ∧
        ∃ sent again, (∀ place, encode d.table place (.string "Letter") value = .ok sent) ∧
          (∀ place, decode d.table place (.string "Letter") sent = .ok again) ∧ value.Alike again := by
  let urls : UrlNormaliser := .single "HTTP://post.example" "http://post.example/"
  have stable : urls.Stable := UrlNormaliser.single_stable _ _
  have checked : ((Json.read? postedLetter).bind fun given =>
      (Schema.compiled? letters).map fun result =>
        decide (result.1.Unclashed ∧ result.2.Unsuffixed ∧ result.1.LeavesTags result.2.table ∧
          (decode result.2.table "letter" (.string "Letter") given).toOption.isSome)) = some true := by
    simp only [Json.read_by_chars, Schema.compiled?, SchemaTree.parse_by_chars]
    decide +kernel
  obtain ⟨given, read, checked⟩ := Option.bind_eq_some_iff.mp checked
  obtain ⟨⟨final, d⟩, found, checked⟩ := Option.map_eq_some_iff.mp checked
  obtain ⟨unclashed, unsuffixed, leaves, present⟩ := of_decide_eq_true checked
  obtain ⟨value, decoded⟩ := Option.isSome_iff_exists.mp present
  have compiles := Schema.compiles_of_compiled found
  have decoded := ok_of_to_option decoded
  exact ⟨urls, stable, final, d, given, value, compiles, read, decoded,
    decoded_returns stable compiles unclashed unsuffixed leaves (.name _)
      (Json.legible_of_read? read) decoded⟩

/-- Where the data of a member needs a field of the name of the tag, nothing with the tag of the
member is encoded. -/
theorem needed_tag_refused [UrlNormaliser] {table : TypeTable} (proper : Proper table)
    {members rest : List Value}
    (typed : ∀ member ∈ members, MemberOver table member)
    (mixed : members.all Value.isString = false) {tag name text path : String}
    (first : First tag members (.list [.string tag, .string name]) rest) {fields : Table Value}
    (found : Value.get? table (.string name) =
      some (.mapping (fields.map fun field => (.string field.1, field.2))))
    (overFields : ∀ field ∈ fields, TypeOver table field.2)
    (needed : ("tag", .string text) ∈ fields) (refuses : admitsNull table text = false)
    (entries : List (Value × Value)) (sent : Value) :
    convert .encoding table path (.list members)
      (.mapping (Value.insert entries (textKey "tag") (.string tag))) ≠ .ok sent := by
  intro encoded
  rw [encode_tagged_first proper typed mixed first, encode_members_pair] at encoded
  obtain ⟨_, converted, _⟩ := bind_ok_iff.mp encoded
  obtain ⟨held, item, same, _, each⟩ :=
    fields_of_within encoding_local proper overFields found converted
  cases same
  have null := each _ needed
  rw [item_without_tag, if_pos rfl] at null
  have admits := check_null_null.mp (checked_of_within null)
  rw [refuses] at admits
  cases admits

/-- The data of a member has a field of the name of the tag, which the tag replaces. -/
theorem own_tag_lost : ∃ urls : UrlNormaliser, urls.Stable ∧
    (Schema.compiled? "type E enum \x7b a \x7b tag: string \x7d \x7d\nfn f(e: E)").map
        (fun (_, d) =>
          let given := Value.list [.string "a", .mapping [(.string "tag", .string "x")]]
          let value := Value.mapping [(.string "tag", .string "a")]
          ((decode d.table "e" (.string "E") given).toOption.map (Value.same value),
            (encode d.table "e" (.string "E") value).isOk)) = some (some true, false) := by
  refine ⟨.refusing, UrlNormaliser.refusing_stable, ?_⟩
  simp only [Schema.compiled?, SchemaTree.parse_by_chars]
  decide +kernel

end Codec

end ApiSchema
