import ApiSchema.Proofs.Codec.Description

/-! What a conversion fails with. Apart from unknown types and types without an end, a failure is
raised for a value, and whatever is passed on comes from the conversion of what is inside. -/

namespace ApiSchema

def CodecFailure.isOfTypes : CodecFailure → Bool
  | .error (.unknownType ..) | .endless => true
  | _ => false

namespace Codec

/-- The outcome is a value or one of some failures. -/
structure FailsOnly {α : Type} (allowed : CodecFailure → Prop) (outcome : Result α) : Prop where
  permitted : ∀ failure, outcome = .error failure → allowed failure

variable {α β : Type} {allowed : CodecFailure → Prop}

namespace FailsOnly

theorem ok (a : α) : FailsOnly allowed (.ok a) := ⟨nofun⟩

theorem error {failure : CodecFailure} (permitted : allowed failure) :
    FailsOnly allowed (.error failure : Result α) := by
  refine ⟨fun _ same => ?_⟩
  cases same
  exact permitted

theorem bind {first : Result α} {next : α → Result β} (start : FailsOnly allowed first)
    (further : ∀ a, first = .ok a → FailsOnly allowed (next a)) :
    FailsOnly allowed (first >>= next) := by
  cases outcome : first with
  | error e => exact error (start.permitted e outcome)
  | ok a => exact further a outcome

end FailsOnly

def AllowsValues (allowed : CodecFailure → Prop) : Prop :=
  ∀ failure, failure.isOfTypes = false → allowed failure

section Values

variable (own : AllowsValues allowed)

include own

namespace FailsOnly

theorem raised {failure : CodecFailure} (raised : failure.isOfTypes = false) :
    FailsOnly allowed (.error failure : Result α) := error (own failure raised)

theorem plain (value : Value) : FailsOnly allowed (plain value) := by
  unfold Codec.plain
  split
  · exact ok _
  · exact raised own rfl

theorem described (value : Value) : FailsOnly allowed (described value) := by
  unfold Codec.described
  split
  · exact ok _
  · exact raised own rfl

theorem mismatch (path expected : String) (value : Value) :
    FailsOnly allowed (mismatch path expected value : Result α) :=
  (described own value).bind fun _ _ => raised own rfl

theorem or_mismatch (path expected : String) (value : Value) (found : Option α) :
    FailsOnly allowed (orMismatch path expected value found) := by
  cases found with
  | none => exact mismatch own path expected value
  | some a => exact ok a

theorem refuse (path : String) (type value : Value) :
    FailsOnly allowed (refuse path type value : Result α) := by
  unfold Codec.refuse
  refine bind ?_ fun _ _ => mismatch own ..
  unfold expectedText
  split
  · exact ok _
  · exact described own _

theorem check_null (table : TypeTable) (path : String) (type value : Value) :
    FailsOnly allowed (checkNull table path type value) := by
  unfold checkNull
  split
  · split
    · exact ok _
    · exact raised own rfl
  · exact ok _

theorem below (path : String) (key : Value) : FailsOnly allowed (below path key) :=
  (plain own key).bind fun _ _ => ok _

theorem member_pair (member : Value) : FailsOnly allowed (memberPair member) := by
  unfold memberPair
  split
  · exact ok _
  · exact raised own rfl
  · exact raised own rfl

theorem universal (t : Timestamp) : FailsOnly allowed (universal t) := by
  unfold Codec.universal
  split
  · exact ok _
  · exact raised own rfl

theorem encoded_member (tag data : Value) : FailsOnly allowed (encodedMember tag data) := by
  unfold encodedMember
  split
  · exact ok _
  · exact raised own rfl

theorem decoded_member (tag data : Value) : FailsOnly allowed (decodedMember tag data) := by
  unfold decodedMember
  split
  · exact ok _
  · exact raised own rfl

theorem encode_scalar [UrlNormaliser] (path name : String) (s : Scalar) (value : Value) :
    FailsOnly allowed (encodeScalar path name s value) := by
  cases s with
  | bytes =>
    simp only [encodeScalar]
    split
    · exact ok _
    · exact ok _
    · exact mismatch own ..
  | bigint =>
    simp only [encodeScalar]
    split
    · split
      · exact ok _
      · exact raised own rfl
    · exact mismatch own ..
  | decimal =>
    simp only [encodeScalar]
    split
    · split
      · exact ok _
      · exact mismatch own ..
    · split
      · exact raised own rfl
      · exact ok _
    · exact (or_mismatch own ..).bind fun _ _ => ok _
  | date => exact (or_mismatch own ..).bind fun _ _ => ok _
  | datetime =>
    simp only [encodeScalar]
    split
    · exact (universal own _).bind fun _ _ => ok _
    · exact (or_mismatch own ..).bind fun t _ => (universal own t).bind fun _ _ => ok _
  | void => exact ok _
  | _ => exact or_mismatch own ..

theorem decode_scalar [UrlNormaliser] (path name : String) (s : Scalar) (value : Value) :
    FailsOnly allowed (decodeScalar path name s value) := by
  cases s with
  | bytes =>
    simp only [decodeScalar]
    split
    · exact (or_mismatch own ..).bind fun _ _ => ok _
    · exact mismatch own ..
  | bigint =>
    simp only [decodeScalar]
    split
    · split
      · exact mismatch own ..
      · split
        · exact raised own rfl
        · split <;> exact ok _
    · exact (or_mismatch own ..).bind fun _ _ => ok _
  | decimal =>
    simp only [decodeScalar]
    split
    · split
      · exact raised own rfl
      · exact ok _
    · exact (or_mismatch own ..).bind fun _ _ => ok _
  | date => exact (or_mismatch own ..).bind fun _ _ => ok _
  | datetime =>
    refine (or_mismatch own ..).bind fun t _ => ?_
    exact (universal own t).bind fun _ _ => ok _
  | void => exact ok _
  | _ => exact or_mismatch own ..

theorem plain_enum (path : String) (members : List Value) (value : Value) :
    FailsOnly allowed (convertPlainEnum path members value) := by
  unfold convertPlainEnum
  split
  · split
    · exact ok _
    · exact refuse own ..
  · exact refuse own ..

end FailsOnly

end Values

section Parts

variable {convert : Conversion} {path : String} {type : Value}

namespace FailsOnly

theorem items (each : ∀ place item, FailsOnly allowed (convert place type item)) (index : Nat)
    (items : List Value) : FailsOnly allowed (convertItems convert path type index items) := by
  induction items generalizing index with
  | nil => exact ok _
  | cons item rest ih =>
    exact (each _ item).bind fun _ _ => (ih (index + 1)).bind fun _ _ => ok _

variable (own : AllowsValues allowed)

include own

theorem fields {entries fields : List (Value × Value)}
    (each : ∀ key type, (key, type) ∈ fields → ∀ place item,
      FailsOnly allowed (convert place type item)) :
    FailsOnly allowed (convertFields convert path entries fields) := by
  induction fields with
  | nil => exact ok _
  | cons field rest ih =>
    obtain ⟨key, type⟩ := field
    refine (below own path key).bind fun place _ => ?_
    refine (each key type (List.mem_cons_self ..) place _).bind fun _ _ => ?_
    exact (ih fun key type member => each key type (List.mem_cons_of_mem _ member)).bind
      fun _ _ => ok _

end FailsOnly

def MembersFailOnly (allowed : CodecFailure → Prop) (convert : Conversion) (members : List Value) :
    Prop := ∀ member ∈ members, ∀ tag type, memberPair member = .ok (tag, type) →
  ∀ place item, FailsOnly allowed (convert place type item)

variable (own : AllowsValues allowed) {whole : Value} {members : List Value}

include own

theorem FailsOnly.encode_members {tag : Value} {data : List (Value × Value)}
    (each : MembersFailOnly allowed convert members) :
    FailsOnly allowed (encodeMembers convert path whole type tag data members) := by
  induction members with
  | nil => exact refuse own ..
  | cons member rest ih =>
    have later := ih fun other listed => each other (List.mem_cons_of_mem _ listed)
    unfold encodeMembers
    split
    · next hollow => cases hollow
    · next _ same =>
      cases same
      split
      · exact ok _
      · exact later
    · next same =>
      cases same
      refine (member_pair own member).bind fun pair paired => ?_
      have known := each member (List.mem_cons_self ..) pair.1 pair.2 paired
      dsimp only
      split
      · refine (below own path _).bind fun place _ => ?_
        exact (known place _).bind fun data _ => encoded_member own ..
      · exact later

theorem FailsOnly.decode_members {value : Value} (each : MembersFailOnly allowed convert members) :
    FailsOnly allowed (decodeMembers convert path whole value members) := by
  induction members with
  | nil => exact refuse own ..
  | cons member rest ih =>
    have later := ih fun other listed => each other (List.mem_cons_of_mem _ listed)
    unfold decodeMembers
    split
    · next hollow => cases hollow
    · next _ same =>
      cases same
      split
      · exact ok _
      · exact later
    · next same =>
      cases same
      refine (member_pair own member).bind fun pair paired => ?_
      have known := each member (List.mem_cons_self ..) pair.1 pair.2 paired
      dsimp only
      split
      · refine (below own path _).bind fun place _ => ?_
        exact (known place _).bind fun data _ => decoded_member own ..
      · exact later

end Parts

/-- A way of conversion that fails for the types alone only behind the members of enums. -/
structure Way.Raising (w : Way) : Prop where
  scalar : ∀ {allowed}, AllowsValues allowed → ∀ path name s value,
    FailsOnly allowed (w.scalar path name s value)
  tagged : ∀ {allowed convert path members value}, AllowsValues allowed →
    MembersFailOnly allowed convert members →
      FailsOnly allowed (w.tagged convert path members value)

theorem encoding_raising [UrlNormaliser] : Way.encoding.Raising where
  scalar own := .encode_scalar own
  tagged own each := by
    change FailsOnly _ (encodeTagged ..)
    unfold encodeTagged
    split
    · split
      · exact .encode_members own each
      · exact .refuse own ..
    · exact .refuse own ..

theorem decoding_raising [UrlNormaliser] : Way.decoding.Raising where
  scalar own := .decode_scalar own
  tagged own each := .decode_members own each

/-- The second type is one that conversions by the first one go on with. -/
inductive Mentions (table : TypeTable) : (type inner : Value) → Prop where
  | member {members member tag type} (listed : member ∈ members)
    (pair : memberPair member = .ok (tag, type)) : Mentions table (.list members) type
  | field {fields key type} (listed : (key, type) ∈ fields) : Mentions table (.mapping fields) type
  | suffix {name suffix inner} (peeled : TypeText.peel? name = some (suffix, inner)) :
    Mentions table (.string name) (.string inner)
  | entry {name type} (whole : TypeText.peel? name = none)
    (found : Value.get? table (.string name) = some type) : Mentions table (.string name) type

def IsUnknown (table : TypeTable) : (type : Value) → Prop
  | .string name => TypeText.peel? name = none ∧ Scalar.ofName? name = none ∧
    ∀ type, Value.get? table (.string name) = some type → type = .null
  | .list _ | .mapping _ => False
  | _ => True

theorem FailsOnly.step {w : Way} {table : TypeTable} {convert : Conversion} {path : String}
    {type value : Value} (own : AllowsValues allowed) (raising : w.Raising)
    (unknown : IsUnknown table type → ∀ path text, allowed (.error (.unknownType path text)))
    (each : ∀ inner, Mentions table type inner → ∀ path value,
      FailsOnly allowed (convert path inner value)) :
    FailsOnly allowed (convertStep w table convert path type value) := by
  refine (FailsOnly.check_null own ..).bind fun _ _ => ?_
  cases type with
  | list members =>
    dsimp only
    split
    · exact .plain_enum own ..
    · exact raising.tagged own fun member listed tag type pair place item =>
        each type (.member listed pair) place item
  | mapping fields =>
    cases value with
    | mapping entries =>
      refine FailsOnly.bind (.fields own fun key type listed place item => ?_) fun _ _ => .ok _
      exact each type (.field listed) place item
    | _ => exact .refuse own ..
  | string name =>
    dsimp only [convertNamed]
    split
    · next suffix inner peeled =>
      have further := each _ (.suffix peeled)
      cases suffix with
      | optional =>
        dsimp only [convertSuffix]
        split
        · exact .ok _
        · exact further path value
      | array =>
        have items : ∀ items, FailsOnly allowed (convertItems convert path (.string inner) 0 items) :=
          .items further 0
        cases value with
        | list listed => exact (items listed).bind fun _ _ => .ok _
        | tuple listed => exact (items listed).bind fun _ _ => .ok _
        | _ => exact .mismatch own ..
    · next whole =>
      split
      · exact raising.scalar own ..
      · next unnamed =>
        split
        · next absent =>
          refine .error (unknown ⟨whole, unnamed, fun type found => ?_⟩ path name)
          rw [absent] at found
          cases found
        · next null =>
          refine .error (unknown ⟨whole, unnamed, fun type found => ?_⟩ path name)
          exact Option.some.inj (found.symm.trans null)
        · next found => exact each _ (.entry whole found) path value
  | _ => exact (FailsOnly.plain own _).bind fun text _ => .error (unknown trivial path text)

end Codec

end ApiSchema

/-! Types that are unknown. A conversion meets one exactly where a text is read as a name that has no
entry; over types and tables all of whose texts resolve there are none. -/

namespace ApiSchema.Codec

/-- A text is read, suffix by suffix, as that of a scalar type or as a name with an entry. -/
inductive Resolves (table : TypeTable) : String → Prop where
  | suffix {text suffix inner} (peeled : TypeText.peel? text = some (suffix, inner))
    (further : Resolves table inner) : Resolves table text
  | scalar {text s} (whole : TypeText.peel? text = none) (scalar : Scalar.ofName? text = some s) :
    Resolves table text
  | entry {text type} (whole : TypeText.peel? text = none)
    (found : Value.get? table (.string text) = some type) (present : type ≠ .null) :
    Resolves table text

/-- A type all of whose texts resolve. -/
inductive Closed (table : TypeTable) : Value → Prop where
  | name {text} (resolves : Resolves table text) : Closed table (.string text)
  | enum {members} (each : ∀ member ∈ members, ∀ tag type,
      memberPair member = .ok (tag, type) → Closed table type) : Closed table (.list members)
  | struct {fields} (each : ∀ key type, (key, type) ∈ fields → Closed table type) :
    Closed table (.mapping fields)

/-- The outcome is not that a type is unknown. -/
structure Knows {α : Type} (outcome : Result α) : Prop where
  known : ∀ path text, outcome ≠ .error (.error (.unknownType path text))

def OfKnown (failure : CodecFailure) : Prop :=
  ∀ path text, failure ≠ .error (.unknownType path text)

theorem knows_of_fails_only {α : Type} {outcome : Result α} (fails : FailsOnly OfKnown outcome) :
    Knows outcome := ⟨fun path text failed => fails.permitted _ failed path text rfl⟩

theorem of_known_values : AllowsValues OfKnown := by
  rintro failure raised path text rfl
  cases raised

variable {w : Way} {table : TypeTable}

section Conversions

theorem Closed.known {type : Value} (closed : Closed table type) : ¬ IsUnknown table type := by
  cases closed with
  | enum | struct => exact id
  | name resolves =>
    rintro ⟨whole, unnamed, absent⟩
    cases resolves with
    | suffix peeled => cases whole.symm.trans peeled
    | scalar _ named => cases unnamed.symm.trans named
    | entry _ found present => exact present (absent _ found)

theorem Closed.mentioned
    (entries : ∀ name type, Value.get? table (.string name) = some type → Closed table type)
    {type inner : Value} (closed : Closed table type) (mentions : Mentions table type inner) :
    Closed table inner := by
  cases mentions with
  | member listed pair =>
    cases closed with
    | enum each => exact each _ listed _ _ pair
  | field listed =>
    cases closed with
    | struct each => exact each _ _ listed
  | entry _ found => exact entries _ _ found
  | suffix peeled =>
    cases closed with
    | name resolves =>
      cases resolves with
      | suffix same further =>
        cases peeled.symm.trans same
        exact .name further
      | scalar whole | entry whole => cases whole.symm.trans peeled

theorem convert_within_known (raising : w.Raising)
    (entries : ∀ name type, Value.get? table (.string name) = some type → Closed table type)
    (n : Nat) : ∀ {path type value}, Closed table type →
      FailsOnly OfKnown (convertWithin w table n path type value) := by
  induction n with
  | zero => exact fun _ => .error nofun
  | succ n ih =>
    intro path type value closed
    rw [convert_within_succ]
    exact .step of_known_values raising (fun unknown => absurd unknown closed.known)
      fun inner mentions _ _ => ih (closed.mentioned entries mentions)

theorem convert_knows (raising : w.Raising)
    (entries : ∀ name type, Value.get? table (.string name) = some type → Closed table type)
    {type : Value} (closed : Closed table type) (path : String) (value : Value) :
    Knows (convert w table path type value) :=
  knows_of_fails_only (convert_within_known raising entries _ closed)

theorem unknown_of_not_resolves (inner : w.Local) (described : Described table) {length : Nat} :
    ∀ {text : String}, text.length < length → ¬ Resolves table text →
      ∃ value, value ≠ .null ∧ ∀ path, ∃ place name,
        convert w table path (.string text) value =
          .error (.error (.unknownType place name)) := by
  induction length with
  | zero => exact fun short => absurd short (Nat.not_lt_zero _)
  | succ length ih =>
    intro text short unresolved
    cases peeled : TypeText.peel? text with
    | some pair =>
      obtain ⟨suffix, stem⟩ := pair
      have shorter := (peel_starts peeled).2
      obtain ⟨value, present, unknown⟩ := @ih stem (by omega) fun resolves =>
        unresolved (.suffix peeled resolves)
      cases suffix with
      | optional =>
        refine ⟨value, present, fun path => ?_⟩
        obtain ⟨place, name, failed⟩ := unknown path
        have other := Value.is_null_of_ne present
        refine ⟨place, name, ?_⟩
        rw [convert_eq inner described (.name text)]
        simp only [convertStep, check_null_of_ne present, convertNamed, peeled, convertSuffix, other]
        exact failed
      | array =>
        refine ⟨.list [value], Value.noConfusion, fun path => ?_⟩
        obtain ⟨place, name, failed⟩ := unknown (path ++ "[" ++ (0 : Nat).repr ++ "]")
        refine ⟨place, name, ?_⟩
        rw [convert_eq inner described (.name text)]
        simp only [convertStep, checkNull, convertNamed, peeled, convertSuffix, convertItems, failed]
        rfl
    | none =>
      refine ⟨.bool true, Value.noConfusion, fun path => ⟨path, text, ?_⟩⟩
      rw [convert_eq inner described (.name text)]
      have scalar : Scalar.ofName? text = none := by
        cases found : Scalar.ofName? text with
        | none => rfl
        | some s => exact absurd (.scalar peeled found) unresolved
      cases found : Value.get? table (.string text) with
      | none =>
        simp only [convertStep, convertNamed, peeled, scalar, found, checkNull]
        rfl
      | some type =>
        have empty : type = .null := by
          by_contra present
          exact unresolved (.entry peeled found present)
        subst empty
        simp only [convertStep, convertNamed, peeled, scalar, found, checkNull]
        rfl

end Conversions

end ApiSchema.Codec
