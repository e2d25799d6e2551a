import ApiSchema.Proofs.Codec.Trip
import ApiSchema.Proofs.Document.Proper

/-! Every value has one transmitted form: the form is decoded to a value that is encoded to it. -/

namespace ApiSchema.Codec

section Canonicity

variable [urls : UrlNormaliser]

/-- A transmitted form is decoded to a value of which it is the form. -/
def Canonical (table : TypeTable) (type sent : Value) : Prop :=
  Trip .decoding .encoding table type sent sent

variable {table : TypeTable} {path name : String} {type value sent : Value}

theorem tag_field_null {fields : Table Value} (proper : Proper table) (distinct : fields.keys.Nodup)
    (typed : ∀ field ∈ fields, TypeOver table field.2) {data out : List (Value × Value)}
    {place : String} (untagged : Value.get? data (textKey "tag") = none)
    (encoded : convert .encoding table place
      (.mapping (fields.map fun field => (.string field.1, field.2))) (.mapping data) = .ok sent)
    (decoded : convert .decoding table path
      (.mapping (fields.map fun field => (.string field.1, field.2))) sent = .ok (.mapping out)) :
    ∀ field ∈ fields, field.1 = "tag" → itemOf out field = .null := by
  intro field member named
  obtain ⟨item, rfl, each⟩ := (convert_struct_iff encoding_local proper distinct typed).mp encoded
  obtain ⟨value, same, each'⟩ := (convert_struct_iff decoding_local proper distinct typed).mp decoded
  cases same
  have empty : itemOf data field = .null := by
    rw [itemOf, named, show Value.get? data (.string "tag") = none from untagged]
    rfl
  have first := each field member
  rw [empty] at first
  have null := null_of_null encoding_keeps_null proper (typed field member) first
  have second := each' field member
  rw [item_of_record distinct item member, null] at second
  rw [item_of_record distinct value member]
  exact null_of_null decoding_keeps_null proper (typed field member) second

section Tagged

variable {members rest : List Value} {given whole : Value} {tag : String}
  {data : List (Value × Value)}

theorem canonical_bare (proper : Proper table) (typed : ∀ member ∈ members, MemberOver table member)
    (mixed : members.all Value.isString = false) (first : First tag members (.string tag) rest) :
    Canonical table (.list members) (.string tag) := by
  refine ⟨.mapping (Value.insert [] (textKey "tag") (.string tag)), fun path => ?_, fun path => ?_⟩
  · rw [decode_tagged_first proper typed mixed first (.inl rfl), decode_members_bare,
      if_pos (Value.same_string_iff.mpr rfl)]
    rfl
  · rw [encode_tagged_first proper typed mixed first]
    exact encode_members_bare

theorem canonical_data (proper : Proper table) {fields : Table Value} {name : String}
    (distinct : fields.keys.Nodup) (overFields : ∀ field ∈ fields, TypeOver table field.2)
    (found : Value.get? table (.string name) =
      some (.mapping (fields.map fun field => (.string field.1, field.2))))
    (typed : ∀ member ∈ members, MemberOver table member)
    (mixed : members.all Value.isString = false)
    (first : First tag members (.list [.string tag, .string name]) rest)
    (untagged : Value.get? data (textKey "tag") = none) {written : List (Value × Value)}
    (encoded : convert .encoding table path (.string name) (.mapping data) = .ok (.mapping written))
    (behind : Canonical table (.string name) (.mapping written))
    (joined : encodedMember (.string tag) (.mapping written) = .ok sent) :
    Canonical table (.list members) sent := by
  obtain ⟨value, decoded, again⟩ := behind
  have shape := decoded ""
  rw [convert_of_struct_name decoding_local proper found] at shape
  obtain ⟨item, rfl, _⟩ := (convert_struct_iff decoding_local proper distinct overFields).mp shape
  rw [convert_of_struct_name encoding_local proper found] at encoded
  have nullTag := tag_field_null proper distinct overFields untagged encoded shape
  refine ⟨.mapping (Value.insert (recordOf fields item) (textKey "tag") (.string tag)),
    fun path => ?_, fun path => ?_⟩
  · exact decode_joined proper distinct overFields found typed mixed first joined decoded
  · refine encode_joined proper distinct overFields found typed mixed first joined ?_ again
    intro field member
    split
    · next named => rw [nullTag field member named]
    · rfl

theorem canonical_members (proper : Proper table) {convert' : Conversion}
    (within : ∀ {path name sent}, convert' path (.string name) (.mapping data) = .ok sent →
      convert .encoding table path (.string name) (.mapping data) = .ok sent ∧
        Canonical table (.string name) sent)
    (typed : ∀ member ∈ members, MemberOver table member)
    (mixed : members.all Value.isString = false)
    (untagged : Value.get? data (textKey "tag") = none)
    (encoded : encodeMembers convert' path whole value given data members = .ok sent) :
    Canonical table (.list members) sent := by
  obtain ⟨tag, member, rest, rfl, first⟩ := first_of_encoded typed encoded
  rw [encode_members_first first] at encoded
  obtain ⟨listed, shape⟩ := first.mem
  rcases typed member listed with ⟨own, rfl⟩ | ⟨own, name, entries, rfl, found⟩
  · obtain rfl : own = tag := by simpa [Tags] using shape
    rw [encode_members_bare] at encoded
    cases encoded
    exact canonical_bare proper typed mixed first
  · obtain rfl : own = tag := by simpa [Tags] using shape
    rw [encode_members_pair] at encoded
    obtain ⟨inner, converted, joined⟩ := bind_ok_iff.mp encoded
    obtain ⟨written, rfl, _⟩ := encoded_member_cases joined
    obtain ⟨converted, behind⟩ := within converted
    cases proper.entries found with
    | struct distinct each =>
      exact canonical_data proper distinct each found typed mixed first untagged converted behind
        joined

end Tagged

/-- What is encoded at all is canonical: by induction on the fuel, where every form of a type is
canonical if what is inside is. -/
theorem canonical_within (stable : urls.Stable) (proper : Proper table) {n : Nat} :
    ∀ {path type value sent}, TypeOver table type → value.Sound →
      convertWithin .encoding table n path type value = .ok sent → Canonical table type sent := by
  induction n with
  | zero =>
    intro path type value sent _ _ failed
    cases failed
  | succ n ih =>
    intro path type value sent typed sound converted
    have nullable : ∀ name, type = .string name → sent = .null → admitsNull table name = true := by
      rintro name rfl rfl
      exact admits_of_null encoding_from_null proper converted
    rw [convert_within_succ] at converted
    obtain ⟨_, -, encoded⟩ := bind_ok_iff.mp converted
    clear converted
    cases typed with
    | enum typed =>
      dsimp only at encoded
      split at encoded
      · next plain =>
        unfold convertPlainEnum at encoded
        split at encoded
        · split at encoded
          · next known =>
            cases encoded
            exact .plain decoding_local encoding_local proper typed plain known
          · exact absurd encoded refuse_ne_ok
        · exact absurd encoded refuse_ne_ok
      · next mixed =>
        simp only [Way.encoding, encodeTagged] at encoded
        split at encoded
        · next entries =>
          split at encoded
          · next tag _ =>
            have kept : ∀ keep, (Value.mapping (entries.filter keep)).Sound :=
              fun _ => sound.fewer (List.filter_subset_self entries)
            refine canonical_members proper (fun converted => ⟨?_, ?_⟩) typed
              (Bool.eq_false_iff.mpr mixed) ?_ encoded
            · exact convert_of_within encoding_local proper (.name _) converted
            · exact ih (.name _) (kept _) converted
            · exact (Value.get?_without ..).trans (if_pos rfl)
          · exact absurd encoded refuse_ne_ok
        · exact absurd encoded refuse_ne_ok
    | struct distinct each =>
      dsimp only at encoded
      split at encoded
      · next entries =>
        obtain ⟨_, filled, same⟩ := bind_ok_iff.mp encoded
        cases same
        obtain ⟨item, converted, rfl⟩ := convert_fields_iff.mp filled
        exact .record decoding_local encoding_local proper distinct each fun field member =>
          ih (each field member) (sound.entry _) (converted field member)
      · exact absurd encoded refuse_ne_ok
    | name name =>
      have nullable := nullable name rfl
      dsimp only [convertNamed] at encoded
      split at encoded
      · next suffix stem peeled =>
        cases suffix with
        | optional =>
          refine .optional decoding_local encoding_local proper encoding_keeps_null Iff.rfl peeled ?_
          simp only [convertSuffix] at encoded
          split at encoded
          · cases encoded
            exact fun present => absurd rfl present
          · exact fun _ => ih (.name stem) sound encoded
        | array =>
          have list : ∀ {items : List Value}, (∀ item ∈ items, item.Sound) →
              (convertItems (convertWithin .encoding table n) path (.string stem) 0 items >>=
                fun outs => .ok (.list outs)) = .ok sent → Canonical table (.string name) sent := by
            intro items sounds encoded
            obtain ⟨outs, all, same⟩ := bind_ok_iff.mp encoded
            cases same
            refine .array decoding_local encoding_local proper peeled ?_
            refine List.forall₂_same.mpr fun out member => ?_
            obtain ⟨item, present, place, converted⟩ := (convert_items_ok all).1 out member
            exact ih (.name stem) (sounds item present) converted
          simp only [convertSuffix] at encoded
          split at encoded
          · exact list (fun _ => sound.item (.inl rfl)) encoded
          · exact list (fun _ => sound.item (.inr rfl)) encoded
          · exact absurd encoded mismatch_ne_ok
      · next plain =>
        split at encoded
        · next s scalar =>
          refine .scalar decoding_local encoding_local proper encoding_keeps_null Iff.rfl plain scalar
            ?_ nullable
          exact rewritten_of_encode (sound _ (Value.self_mem_parts _)) stable encoded
        · split at encoded
          · cases encoded
          · cases encoded
          · next type _ found =>
            exact .entry decoding_local encoding_local proper encoding_keeps_null Iff.rfl found
              (ih (proper.entries found) sound encoded) nullable

/-- The transmitted form of a value is decoded, and what it is decoded to is encoded to it again. -/
theorem encoding_canonical (stable : urls.Stable) (proper : Proper table)
    (typed : TypeOver table type) (sound : value.Sound)
    (encoded : encode table path type value = .ok sent) :
    ∃ value', (∀ place, decode table place type sent = .ok value') ∧
      ∀ place, encode table place type value' = .ok sent :=
  canonical_within stable proper typed sound encoded

end Canonicity

def garden : String :=
  "type Tree \x7b label: Label, planted: datetime, height: decimal, state: State, children: Tree[] \x7d
type Label string?
type State enum \x7b bare, leafy \x7b note: string?, photo: url? \x7d, cut \x7b by: bytes \x7d \x7d
fn plant(tree: Tree)"

def oak : Value :=
  let young := Value.mapping [
    (.string "planted", .string "2024-02-29T23:30:00.1239-01:00"),
    (.string "height", .decimal (.finite true 12 3)),
    (.string "state", .mapping [(.string "tag", .string "leafy"), (.string "note", .null),
      (.string "photo", .string "HTTP://garden.example")]),
    (.string "children", .tuple [])]
  .mapping [
    (.string "label", .string "oak"),
    (.string "planted", .timestamp ⟨⟨1987, 6, 5⟩, 4, 3, 2, 1999, some 3600⟩),
    (.string "height", .int 20),
    (.string "state", .mapping [(.string "by", .buffer [1, 2, 255]), (.string "tag", .string "cut")]),
    (.string "children", .list [young])]

theorem oak_canonical : ∃ urls : UrlNormaliser, urls.Stable ∧
    ∃ final d sent, Schema.Compiles final d ∧ Proper d.table ∧
    encode d.table "tree" (.string "Tree") oak = .ok sent ∧
      ∃ value', (∀ place, decode d.table place (.string "Tree") sent = .ok value') ∧
        ∀ place, encode d.table place (.string "Tree") value' = .ok sent := by
  let urls : UrlNormaliser := .single "HTTP://garden.example" "http://garden.example/"
  have stable : urls.Stable := UrlNormaliser.single_stable _ _
  have checked : (Schema.compiled? garden).map (fun result =>
      decide (result.1.Unclashed ∧ result.2.Unsuffixed ∧
        (encode result.2.table "tree" (.string "Tree") oak).toOption.isSome)) = some true := by
    simp only [Schema.compiled?, SchemaTree.parse_by_chars]
    decide +kernel
  obtain ⟨⟨final, d⟩, found, checked⟩ := Option.map_eq_some_iff.mp checked
  obtain ⟨unclashed, unsuffixed, present⟩ := of_decide_eq_true checked
  obtain ⟨sent, encoded⟩ := Option.isSome_iff_exists.mp present
  have compiles := Schema.compiles_of_compiled found
  have encoded := ok_of_to_option encoded
  have proper := compiles.proper unclashed unsuffixed
  exact ⟨urls, stable, final, d, sent, compiles, proper, encoded,
    encoding_canonical stable proper (.name _) (.of_all (by decide +kernel)) encoded⟩

end ApiSchema.Codec
