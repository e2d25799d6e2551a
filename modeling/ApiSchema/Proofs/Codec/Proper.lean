import ApiSchema.Proofs.Codec.Scalars
import ApiSchema.Proofs.Codec.Taking
import Mathlib.Logic.Relation

/-! Tables of types that are well-formed. Over such a table null is converted to nothing but itself,
and only by types that admit it is anything converted to null. -/

namespace ApiSchema.Codec

/-- A member of an enum is a tag, alone or in front of the name of a struct. -/
def MemberOver (table : TypeTable) (member : Value) : Prop :=
  (∃ tag, member = .string tag) ∨ ∃ tag name fields, member = .list [.string tag, .string name] ∧
    Value.get? table (.string name) = some (.mapping fields)

/-- Types over a table: names with suffixes, enums, and structs. -/
inductive TypeOver (table : TypeTable) : Value → Prop where
  | name (text : String) : TypeOver table (.string text)
  | enum {members} (each : ∀ member ∈ members, MemberOver table member) :
    TypeOver table (.list members)
  | struct {fields : Table Value} (distinct : fields.keys.Nodup)
    (each : ∀ field ∈ fields, TypeOver table field.2) :
    TypeOver table (.mapping (fields.map fun field => (.string field.1, field.2)))

def PassesTo (table : TypeTable) (first next : String) : Prop :=
  Alias table first next ∨ TypeText.peel? first = some (.optional, next)

/-- A value of the name is passed on to other names only so often. -/
abbrev Settled (table : TypeTable) (name : String) : Prop :=
  Acc (fun next first => PassesTo table first next) name

/-- A table of types: its names are neither those of scalar types nor do they end in suffixes, and
none of them stands for itself in the end. -/
structure Proper (table : TypeTable) : Prop where
  entries : ∀ {name type}, Value.get? table (.string name) = some type → TypeOver table type
  plain : ∀ {name type}, Value.get? table (.string name) = some type →
    TypeText.peel? name = none ∧ Scalar.ofName? name = none
  acyclic : ∀ name, ¬ Relation.TransGen (Alias table) name name

variable {w : Way} {table : TypeTable} {path name : String} {type value sent : Value}

theorem MemberOver.shape {member : Value} (typed : MemberOver table member) :
    ∃ tag, member = .string tag ∨ ∃ name, member = .list [.string tag, .string name] := by
  rcases typed with ⟨tag, rfl⟩ | ⟨tag, name, _, rfl, _⟩
  · exact ⟨tag, .inl rfl⟩
  · exact ⟨tag, .inr ⟨name, rfl⟩⟩

theorem description_of_over (typed : TypeOver table type) : Description type := by
  induction typed with
  | name text => exact .name text
  | @enum members each =>
    have pairs : ∀ member ∈ members, ∀ tag type, memberPair member = .ok (tag, type) →
        ∃ text name, tag = Value.string text ∧ type = Value.string name := by
      intro member listed tag type pair
      obtain ⟨text, rfl | ⟨name, rfl⟩⟩ := (each member listed).shape
      · cases pair
      · cases pair
        exact ⟨_, _, rfl, rfl⟩
    refine .enum ?_ ?_
    · intro member listed tag type pair
      obtain ⟨_, _, rfl, _⟩ := pairs member listed tag type pair
      rfl
    · intro member listed tag type pair
      obtain ⟨_, _, _, rfl⟩ := pairs member listed tag type pair
      exact .name _
  | struct _ _ ih =>
    refine .struct fun key type member => ?_
    obtain ⟨field, listed, same⟩ := List.mem_map.mp member
    cases same
    exact ih field listed

namespace Proper

theorem described (proper : Proper table) : Described table := fun _ _ found =>
  description_of_over (proper.entries found)

end Proper

section Nulls

theorem void_of_scalar (scalar : Scalar.ofName? name = some .void) : name = "void" := by
  obtain ⟨before, after, same, _⟩ := List.lookup_eq_some_iff.mp scalar
  have member : (name, Scalar.void) ∈ scalarNames := by
    rw [same]
    exact List.mem_append_right _ (List.mem_cons_self ..)
  have only : ∀ entry ∈ scalarNames, entry.2 = .void → entry.1 = "void" := by decide
  exact only _ member rfl

theorem admits_null_void (proper : Proper table) (scalar : Scalar.ofName? name = some .void) :
    admitsNull table name = true := by
  exact (admits_null_iff proper.plain).mpr ⟨name, .refl, .inr (void_of_scalar scalar)⟩

structure Way.KeepsNull (w : Way) : Prop where
  scalar : ∀ {path name s out}, w.scalar path name s .null = .ok out → out = .null
  tagged : ∀ {table convert path members out}, (∀ member ∈ members, MemberOver table member) →
    w.tagged convert path members .null ≠ .ok out

theorem shared_null [UrlNormaliser] {s : Scalar} {form : Value}
    (shared : sharedForm? s .null = some form) :
    form = .null := by
  have json : jsonForm? .null = some .null := rfl
  cases s <;> simp_all [sharedForm?, wholeNumber?]

theorem encode_scalar_null [UrlNormaliser] {s : Scalar} {out : Value}
    (encoded : encodeScalar path name s .null = .ok out) : out = .null := by
  cases s with
  | bytes | bigint => exact absurd encoded mismatch_ne_ok
  | decimal | date | datetime =>
    obtain ⟨_, failed, _⟩ := bind_ok_iff.mp encoded
    exact absurd failed mismatch_ne_ok
  | _ =>
    simp only [encodeScalar] at encoded
    exact shared_null (or_mismatch_ok.mp encoded)

theorem decode_scalar_null [UrlNormaliser] {s : Scalar} {out : Value}
    (decoded : decodeScalar path name s .null = .ok out) : out = .null := by
  cases s with
  | bytes => exact absurd decoded mismatch_ne_ok
  | bigint | decimal | date | datetime =>
    obtain ⟨_, failed, _⟩ := bind_ok_iff.mp decoded
    exact absurd failed mismatch_ne_ok
  | _ =>
    simp only [decodeScalar] at decoded
    exact shared_null (or_mismatch_ok.mp decoded)

theorem encoding_keeps_null [UrlNormaliser] : Way.encoding.KeepsNull where
  scalar := encode_scalar_null
  tagged _ := refuse_ne_ok

theorem decoding_keeps_null [UrlNormaliser] : Way.decoding.KeepsNull where
  scalar := decode_scalar_null
  tagged {table convert path members out} typed := by
    change decodeMembers convert path (.list members) .null members ≠ .ok out
    generalize Value.list members = whole
    induction members with
    | nil => exact refuse_ne_ok
    | cons member rest ih =>
      have later := ih fun other listed => typed other (List.mem_cons_of_mem _ listed)
      obtain ⟨tag, rfl | ⟨name, rfl⟩⟩ := (typed member (List.mem_cons_self ..)).shape
      · exact later
      · exact later

theorem null_of_null (keeps : w.KeepsNull) (proper : Proper table) {n : Nat} :
    ∀ {path type out}, TypeOver table type → convertWithin w table n path type .null = .ok out →
      out = .null := by
  induction n with
  | zero =>
    intro path type out _ failed
    cases failed
  | succ n ih =>
    intro path type out typed converted
    rw [convert_within_succ] at converted
    obtain ⟨_, _, converted⟩ := bind_ok_iff.mp converted
    cases typed with
    | enum each =>
      dsimp only at converted
      split at converted
      · exact absurd converted refuse_ne_ok
      · exact absurd converted (keeps.tagged each)
    | struct => exact absurd converted refuse_ne_ok
    | name name =>
      dsimp only [convertNamed] at converted
      split at converted
      · next suffix inner peeled =>
        cases suffix with
        | optional =>
          cases converted
          rfl
        | array => exact absurd converted mismatch_ne_ok
      · split at converted
        · exact keeps.scalar converted
        · split at converted
          · cases converted
          · cases converted
          · next type _ found => exact ih (proper.entries found) converted

section Members

def Tags (member : Value) (tag : String) : Prop :=
  member = .string tag ∨ ∃ name, member = .list [.string tag, .string name]

/-- The first member with a tag, and the members behind it. -/
inductive First (tag : String) : List Value → Value → List Value → Prop where
  | here {member rest} (own : Tags member tag) : First tag (member :: rest) member rest
  | later {member rest found after other} (tagged : Tags member other) (apart : other ≠ tag)
    (further : First tag rest found after) : First tag (member :: rest) found after

variable {convert : Conversion} {tag : String} {members rest : List Value} {member whole : Value}
  {data : List (Value × Value)}

theorem First.mem (first : First tag members member rest) : member ∈ members ∧ Tags member tag := by
  induction first with
  | here own => exact ⟨List.mem_cons_self .., own⟩
  | later _ _ _ ih => exact ⟨List.mem_cons_of_mem _ ih.1, ih.2⟩

theorem encode_members_bare : encodeMembers convert path whole value (.string tag) data
    (.string tag :: rest) = .ok (.string tag) :=
  if_pos (Value.same_string_iff.mpr rfl)

theorem encode_members_pair (name : String) : encodeMembers convert path whole value (.string tag) data
    (.list [.string tag, .string name] :: rest) =
      (convert (path ++ "." ++ tag) (.string name) (.mapping data) >>=
        encodedMember (.string tag)) :=
  if_pos (Value.same_string_iff.mpr rfl)

theorem encode_members_first (first : First tag members member rest) :
    encodeMembers convert path whole value (.string tag) data members =
      encodeMembers convert path whole value (.string tag) data (member :: rest) := by
  induction first with
  | here => rfl
  | @later member rest found after other tagged apart _ ih =>
    have unlike : (Value.string tag).same (.string other) = false := by
      simpa [Value.same] using Ne.symm apart
    have unlike' : (Value.string other).same (.string tag) = false := by
      simpa [Value.same] using apart
    rw [← ih]
    rcases tagged with rfl | ⟨name, rfl⟩
    · exact if_neg (by rw [unlike]; exact Bool.false_ne_true)
    · exact if_neg (by rw [unlike']; exact Bool.false_ne_true)

theorem decode_members_first (first : First tag members member rest) {received : Value}
    (tagged : received = .string tag ∨ ∃ data, received = .list [.string tag, data]) :
    decodeMembers convert path whole received members =
      decodeMembers convert path whole received (member :: rest) := by
  induction first with
  | here => rfl
  | later other apart _ ih => rw [decode_members_skip other apart tagged, ih]

theorem first_of_encoded {given : Value} (typed : ∀ member ∈ members, MemberOver table member)
    (encoded : encodeMembers convert path whole value given data members = .ok sent) :
    ∃ tag member rest, given = .string tag ∧ First tag members member rest := by
  induction members with
  | nil => exact absurd encoded refuse_ne_ok
  | cons member others ih =>
    have later := ih fun other listed => typed other (List.mem_cons_of_mem _ listed)
    obtain ⟨own, shape⟩ := (typed member (List.mem_cons_self ..)).shape
    by_cases here : given = .string own
    · exact ⟨own, member, others, here, .here shape⟩
    · have further : encodeMembers convert path whole value given data others = .ok sent := by
        rcases shape with rfl | ⟨name, rfl⟩
        · simp only [encodeMembers] at encoded
          rwa [if_neg fun same => here (Value.same_string_iff.mp same)] at encoded
        · simp only [encodeMembers] at encoded
          obtain ⟨_, ⟨⟩, encoded⟩ := bind_ok_iff.mp encoded
          dsimp only at encoded
          rwa [if_neg fun same => here (Value.string_same_iff.mp same)] at encoded
      obtain ⟨tag, found, rest, rfl, first⟩ := later further
      exact ⟨tag, found, rest, rfl, .later shape (fun same => here (by rw [same])) first⟩

theorem encoded_member_cases {data : Value} (encoded : encodedMember (.string tag) data = .ok sent) :
    ∃ entries, data = .mapping entries ∧
      (sent = .string tag ∧ (∀ entry ∈ entries, entry.2 = .null) ∨ sent = .list [.string tag, data]) := by
  cases data with
  | mapping entries =>
    simp only [encodedMember, Except.ok.injEq] at encoded
    subst encoded
    refine ⟨entries, rfl, ?_⟩
    split
    · next empty =>
      refine .inl ⟨rfl, fun entry member => ?_⟩
      have null := List.all_eq_true.mp empty entry member
      cases emptied : entry.2 with
      | null => rfl
      | _ => simp [emptied, Value.isNull] at null
    · exact .inr rfl
  | _ => cases encoded

end Members

structure Way.FromNull (w : Way) : Prop where
  scalar : ∀ {path name s value}, w.scalar path name s value = .ok .null → s = .void ∨ value = .null
  tagged : ∀ {table convert path members value}, (∀ member ∈ members, MemberOver table member) →
    w.tagged convert path members value ≠ .ok .null

theorem encoded_tagged_present {convert : Conversion} {members : List Value} {given whole : Value}
    {data : List (Value × Value)} (typed : ∀ member ∈ members, MemberOver table member)
    (encoded : encodeMembers convert path whole value given data members = .ok sent) :
    sent ≠ .null := by
  obtain ⟨tag, member, rest, rfl, first⟩ := first_of_encoded typed encoded
  rw [encode_members_first first] at encoded
  rcases first.mem.2 with rfl | ⟨name, rfl⟩
  · rw [encode_members_bare] at encoded
    cases encoded
    exact nofun
  · rw [encode_members_pair] at encoded
    obtain ⟨_, _, encoded⟩ := bind_ok_iff.mp encoded
    obtain ⟨_, _, ⟨rfl, _⟩ | rfl⟩ := encoded_member_cases encoded <;> exact nofun

theorem encoding_from_null [UrlNormaliser] : Way.encoding.FromNull where
  scalar := null_of_encode
  tagged {table convert path members value} typed encoded := by
    simp only [Way.encoding, encodeTagged] at encoded
    split at encoded
    · split at encoded
      · exact encoded_tagged_present typed encoded rfl
      · exact absurd encoded refuse_ne_ok
    · exact absurd encoded refuse_ne_ok

theorem decoded_tagged_present {convert : Conversion} {members : List Value} {whole out : Value}
    (typed : ∀ member ∈ members, MemberOver table member)
    (decoded : decodeMembers convert path whole value members = .ok out) :
    ∃ entries, out = .mapping entries := by
  induction members with
  | nil => exact absurd decoded refuse_ne_ok
  | cons member rest ih =>
    have later := ih fun other listed => typed other (List.mem_cons_of_mem _ listed)
    obtain ⟨tag, rfl | ⟨name, rfl⟩⟩ := (typed member (List.mem_cons_self ..)).shape
    · rw [decode_members_bare] at decoded
      split at decoded
      · cases decoded
        exact ⟨_, rfl⟩
      · exact later decoded
    · rw [decode_members_pair] at decoded
      split at decoded
      · obtain ⟨data, _, joined⟩ := bind_ok_iff.mp decoded
        cases data <;> cases joined
        exact ⟨_, rfl⟩
      · exact later decoded

theorem decoding_from_null [UrlNormaliser] : Way.decoding.FromNull where
  scalar := null_of_decode
  tagged typed decoded := by
    obtain ⟨_, same⟩ := decoded_tagged_present typed decoded
    cases same

theorem checked_of_within {n : Nat} {out : Value}
    (converted : convertWithin w table n path type value = .ok out) :
    checkNull table path type value = .ok () := by
  cases n with
  | zero => cases converted
  | succ n =>
    rw [convert_within_succ] at converted
    obtain ⟨_, checked, _⟩ := bind_ok_iff.mp converted
    exact checked

section Present

variable (gives : w.FromNull) {n : Nat} {out : Value}

theorem converted_struct_present {fields : List (Value × Value)}
    (converted : convertWithin w table n path (.mapping fields) value = .ok out) : out ≠ .null := by
  cases n with
  | zero => cases converted
  | succ n =>
    rw [convert_within_succ] at converted
    obtain ⟨_, _, converted⟩ := bind_ok_iff.mp converted
    dsimp only at converted
    split at converted
    · obtain ⟨_, _, same⟩ := bind_ok_iff.mp converted
      cases same
      exact nofun
    · exact absurd converted refuse_ne_ok

include gives

theorem converted_enum_present {members : List Value}
    (typed : ∀ member ∈ members, MemberOver table member)
    (converted : convertWithin w table n path (.list members) value = .ok out) : out ≠ .null := by
  cases n with
  | zero => cases converted
  | succ n =>
    rw [convert_within_succ] at converted
    obtain ⟨_, _, converted⟩ := bind_ok_iff.mp converted
    dsimp only at converted
    split at converted
    · unfold convertPlainEnum at converted
      split at converted
      · split at converted
        · cases converted
          exact nofun
        · exact absurd converted refuse_ne_ok
      · exact absurd converted refuse_ne_ok
    · rintro rfl
      exact gives.tagged typed converted

theorem admits_of_null (proper : Proper table) :
    ∀ {path name value}, convertWithin w table n path (.string name) value = .ok .null →
      admitsNull table name = true := by
  induction n with
  | zero =>
    intro path name value failed
    cases failed
  | succ n ih =>
    intro path name value converted
    rw [convert_within_succ] at converted
    obtain ⟨_, checked, converted⟩ := bind_ok_iff.mp converted
    by_cases null : value = .null
    · exact check_null_null.mp (null ▸ checked)
    dsimp only [convertNamed] at converted
    split at converted
    · next suffix inner peeled =>
      cases suffix with
      | optional => exact admits_null_optional proper.plain peeled
      | array =>
        simp only [convertSuffix] at converted
        split at converted
        · obtain ⟨_, _, same⟩ := bind_ok_iff.mp converted
          cases same
        · obtain ⟨_, _, same⟩ := bind_ok_iff.mp converted
          cases same
        · exact absurd converted mismatch_ne_ok
    · split at converted
      · next s scalar =>
        rcases gives.scalar converted with rfl | same
        · exact admits_null_void proper scalar
        · exact absurd same null
      · split at converted
        · cases converted
        · cases converted
        · next type _ found =>
          have typed := proper.entries found
          cases typed with
          | name next => rw [admits_null_alias proper.plain found, ih converted]
          | enum each => exact absurd rfl (converted_enum_present gives each converted)
          | struct => exact absurd rfl (converted_struct_present converted)

end Present

end Nulls

section Steps

variable (inner : w.Local) (proper : Proper table)

include inner proper

theorem convert_of_suffix {suffix : Suffix} {stem : String}
    (peeled : TypeText.peel? name = some (suffix, stem)) :
    convert w table path (.string name) value =
      (checkNull table path (.string name) value >>= fun _ =>
        convertSuffix (convert w table) path name suffix stem value) := by
  rw [convert_eq inner proper.described (.name name)]
  simp only [convertStep, convertNamed, peeled]

theorem convert_of_scalar {s : Scalar} (plain : TypeText.peel? name = none)
    (scalar : Scalar.ofName? name = some s) :
    convert w table path (.string name) value =
      (checkNull table path (.string name) value >>= fun _ => w.scalar path name s value) := by
  rw [convert_eq inner proper.described (.name name)]
  simp only [convertStep, convertNamed, plain, scalar]

theorem convert_of_entry (found : Value.get? table (.string name) = some type) :
    convert w table path (.string name) value =
      (checkNull table path (.string name) value >>= fun _ => convert w table path type value) := by
  have typed := proper.entries found
  have present : type ≠ .null := by cases typed <;> exact nofun
  rw [convert_eq inner proper.described (.name name), convert_entry (proper.plain found) found present]

theorem convert_of_enum {members : List Value} (typed : ∀ member ∈ members, MemberOver table member) :
    convert w table path (.list members) value =
      if members.all Value.isString then convertPlainEnum path members value
      else w.tagged (convert w table) path members value := by
  rw [convert_eq inner proper.described (description_of_over (.enum typed))]
  rfl

theorem convert_of_struct {fields : Table Value} (distinct : fields.keys.Nodup)
    (each : ∀ field ∈ fields, TypeOver table field.2) (entries : List (Value × Value)) :
    convert w table path (.mapping (fields.map fun field => (.string field.1, field.2)))
        (.mapping entries) =
      (convertFields (convert w table) path entries
        (fields.map fun field => (.string field.1, field.2)) >>= fun out => .ok (.mapping out)) := by
  rw [convert_eq inner proper.described (description_of_over (.struct distinct each))]
  rfl

theorem convert_within_more {n more : Nat} {out : Value} (typed : TypeOver table type) (le : n ≤ more)
    (converted : convertWithin w table n path type value = .ok out) :
    convertWithin w table more path type value = .ok out := by
  have follows : Follows (convertWithin w table more path type value)
      (convertWithin w table n path type value) :=
    convert_within_mono inner proper.described le (description_of_over typed)
  rw [follows (by rw [converted]; exact nofun), converted]

theorem convert_of_within {n : Nat} {out : Value} (typed : TypeOver table type)
    (converted : convertWithin w table n path type value = .ok out) :
    convert w table path type value = .ok out := by
  rw [← convert_within_of_bound inner proper.described (description_of_over typed)
    (Nat.le_add_left _ n)]
  exact convert_within_more inner proper typed (Nat.le_add_right ..) converted

end Steps

end ApiSchema.Codec
