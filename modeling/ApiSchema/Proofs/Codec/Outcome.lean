import ApiSchema.Proofs.Codec.Trip
import ApiSchema.Proofs.Document.Proper
import ApiSchema.Proofs.Json.RoundTrip

/-! What decoding ends in: a value, an error at the place of a part that is refused, or one of two
failures of numbers and times that are out of range. -/

namespace ApiSchema.Codec

/-- The way from a value of a type to a part of it with its own type, as paths write it. -/
inductive Route (table : TypeTable) : (type value : Value) → String → (type' value' : Value) → Prop where
  | here {type value} : Route table type value "" type value
  | entry {name type value route type' value'}
    (found : Value.get? table (.string name) = some type)
    (further : Route table type value route type' value') :
    Route table (.string name) value route type' value'
  | optional {name stem value route type' value'}
    (peeled : TypeText.peel? name = some (.optional, stem))
    (further : Route table (.string stem) value route type' value') :
    Route table (.string name) value route type' value'
  | item {name stem items item route type' value'} {index : Nat}
    (peeled : TypeText.peel? name = some (.array, stem)) (listed : items[index]? = some item)
    (further : Route table (.string stem) item route type' value') :
    Route table (.string name) (.list items) ("[" ++ index.repr ++ "]" ++ route) type' value'
  | field {fields entries key type route type' value'} (member : (.string key, type) ∈ fields)
    (further : Route table type ((Value.get? entries (.string key)).getD .null) route type' value') :
    Route table (.mapping fields) (.mapping entries) ("." ++ key ++ route) type' value'
  | tag {members tag name value data route type' value'}
    (member : .list [.string tag, .string name] ∈ members)
    (matched : taggedData? (.string tag) value = some data)
    (further : Route table (.string name) data route type' value') :
    Route table (.list members) value ("." ++ tag ++ route) type' value'

/-- A number that is too long to be written, or a text for one that is too long to be read. -/
def TooLong (type value : Value) : Prop :=
  value.HasLong ∨ ∃ name text, type = .string name ∧ value = .string text ∧
    Scalar.ofName? name = some .bigint ∧ isIntegerText text.toList = true ∧
      isTooLong (.string text) = true

def failure? {α : Type} : Result α → Option CodecFailure
  | .ok _ => none
  | .error failure => some failure

theorem error_of_failure {α : Type} {outcome : Result α} {failure : CodecFailure}
    (failed : failure? outcome = some failure) : outcome = .error failure := by
  cases outcome with
  | ok => cases failed
  | error =>
    cases failed
    rfl

/-- What the conversion of a value at a path ends in. -/
inductive Outcome (table : TypeTable) (path : String) (type value : Value) {α : Type} :
    Result α → Prop where
  | ok {a} : Outcome table path type value (.ok a)
  | refused {e : CodecError} {route type' value'} (way : Route table type value route type' value')
    (place : e.path = path ++ route) : Outcome table path type value (.error (.error e))
  | outside {route name text t} (way : Route table type value route (.string name) (.string text))
    (scalar : Scalar.ofName? name = some .datetime) (read : Timestamp.ofText? text.toList = some t)
    (outside : t.toUniversal? = none) : Outcome table path type value (.error .outsideCalendar)
  | long {route type' value'} (way : Route table type value route type' value')
    (long : TooLong type' value') : Outcome table path type value (.error .numberTooLong)

variable {table : TypeTable} {path name : String} {type value : Value}

theorem legible_of_over (typed : TypeOver table type) : Json.Legible type := by
  induction typed with
  | name text => exact .string
  | enum each =>
    refine .list fun member listed => ?_
    obtain ⟨tag, rfl | ⟨name, rfl⟩⟩ := (each member listed).shape
    · exact .string
    · refine .list fun item inside => ?_
      rcases List.mem_pair.mp inside with rfl | rfl <;> exact .string
  | struct distinct _ ih => exact .mapping distinct ih

namespace Outcome

variable {α β : Type}

theorem of_inside {step : String} {type' value' : Value} {outcome : Result α}
    (inside : Outcome table (path ++ step) type' value' outcome)
    (way : ∀ {route last part}, Route table type' value' route last part →
      Route table type value (step ++ route) last part) :
    Outcome table path type value outcome := by
  cases inside with
  | ok => exact .ok
  | refused further place => exact .refused (way further) (by rw [place, String.append_assoc])
  | outside further scalar read outside => exact .outside (way further) scalar read outside
  | long further long => exact .long (way further) long

theorem of_same {type' : Value} {outcome : Result α} (same : Outcome table path type' value outcome)
    (way : ∀ {route last part}, Route table type' value route last part →
      Route table type value route last part) : Outcome table path type value outcome := by
  have inside : Outcome table (path ++ "") type' value outcome := by rwa [String.append_empty]
  exact inside.of_inside fun further => by
    rw [String.empty_append]
    exact way further

theorem bind {first : Result α} {next : α → Result β} (start : Outcome table path type value first)
    (further : ∀ a, first = .ok a → Outcome table path type value (next a)) :
    Outcome table path type value (first >>= next) := by
  cases start with
  | ok => exact further _ rfl
  | refused way place => exact .refused way place
  | outside way scalar read outside => exact .outside way scalar read outside
  | long way long => exact .long way long

theorem mismatch (json : value.IsJson) (expected : String) :
    Outcome table path type value (mismatch path expected value : Result α) := by
  unfold Codec.mismatch described
  by_cases long : value.HasLong
  · cases value.described? with
    | none => exact .long .here (.inl long)
    | some text => exact .refused .here (String.append_empty ..).symm
  · obtain ⟨text, shown⟩ := Option.isSome_iff_exists.mp (Value.described_some json long)
    rw [shown]
    exact .refused .here (String.append_empty ..).symm

theorem or_mismatch (json : value.IsJson) (expected : String) (found : Option α) :
    Outcome table path type value (orMismatch path expected value found) := by
  cases found with
  | none => exact mismatch json expected
  | some a => exact .ok

theorem refuse (typed : TypeOver table type) (json : value.IsJson) :
    Outcome table path type value (refuse path type value : Result α) := by
  have expected : ∃ text, expectedText type = .ok text := by
    obtain ⟨text, written, _⟩ := Json.read_write Json.Spacing.proper_wide (legible_of_over typed)
    cases type with
    | string name => exact ⟨name, rfl⟩
    | _ => exact ⟨text, by simp [expectedText, described, Value.described?, written]⟩
  obtain ⟨text, shown⟩ := expected
  unfold Codec.refuse
  rw [shown]
  exact mismatch json text

end Outcome

section Parts

variable {convert : Conversion}

theorem check_null_outcome : Outcome table path type value (checkNull table path type value) := by
  unfold checkNull
  split
  · split
    · exact .ok
    · exact .refused .here (String.append_empty ..).symm
  · exact .ok

theorem scalar_outcome [UrlNormaliser] {s : Scalar} (scalar : Scalar.ofName? name = some s)
    (json : value.IsJson) :
    Outcome table path (.string name) value (decodeScalar path name s value) := by
  cases s with
  | void => exact .ok
  | bytes =>
    cases value with
    | string text => exact (Outcome.or_mismatch json _ _).bind fun _ _ => .ok
    | _ => exact .mismatch json _
  | bigint =>
    simp only [decodeScalar]
    split
    · next text =>
      split
      · exact .mismatch json _
      · next integer =>
        split
        · next long =>
          exact .long .here (.inr ⟨name, text, rfl, rfl, scalar, by simpa using integer, long⟩)
        · split <;> exact .ok
    · exact (Outcome.or_mismatch json _ _).bind fun _ _ => .ok
  | decimal =>
    simp only [decodeScalar]
    split
    · next n =>
      split
      · next long => exact .long .here (.inl ⟨n, Value.self_mem_parts _, long⟩)
      · exact .ok
    · exact (Outcome.or_mismatch json _ _).bind fun _ _ => .ok
  | date => exact (Outcome.or_mismatch json _ _).bind fun _ _ => .ok
  | datetime =>
    refine (Outcome.or_mismatch json _ _).bind fun t found => ?_
    refine Outcome.bind ?_ fun _ _ => .ok
    unfold universal
    split
    · exact .ok
    · next outside =>
      have read := or_mismatch_ok.mp found
      cases value with
      | string text => exact .outside .here scalar read outside
      | _ => cases read
  | _ => exact .or_mismatch json _ _

theorem items_outcome {stem : String} (peeled : TypeText.peel? name = some (.array, stem))
    {items : List Value} (each : ∀ (index : Nat) item, items[index]? = some item →
      Outcome table (path ++ "[" ++ index.repr ++ "]") (.string stem) item
        (convert (path ++ "[" ++ index.repr ++ "]") (.string stem) item)) :
    Outcome table path (.string name) (.list items) (convertItems convert path (.string stem) 0 items) := by
  have from_index : ∀ (rest : List Value) (index : Nat), (∀ i, rest[i]? = items[index + i]?) →
      Outcome table path (.string name) (.list items)
        (convertItems convert path (.string stem) index rest) := by
    intro rest
    induction rest with
    | nil => exact fun _ _ => .ok
    | cons item rest ih =>
      intro index shifted
      have listed : items[index]? = some item := (shifted 0).symm
      have own := each index item listed
      have place : path ++ "[" ++ index.repr ++ "]" = path ++ ("[" ++ index.repr ++ "]") := by
        simp only [String.append_assoc]
      simp only [convertItems]
      rw [place] at own ⊢
      refine (own.of_inside (.item peeled listed)).bind fun _ _ => ?_
      refine (ih (index + 1) fun i => ?_).bind fun _ _ => .ok
      rw [show index + 1 + i = index + (i + 1) by omega, ← shifted]
      rfl
  exact from_index items 0 fun i => by rw [Nat.zero_add]

theorem fields_outcome {fields : Table Value} {entries : List (Value × Value)}
    (each : ∀ field ∈ fields, Outcome table (path ++ "." ++ field.1) field.2 (itemOf entries field)
      (convert (path ++ "." ++ field.1) field.2 (itemOf entries field))) :
    Outcome table path (.mapping (fields.map fun field => (.string field.1, field.2)))
      (.mapping entries) (convertFields convert path entries
        (fields.map fun field => (.string field.1, field.2))) := by
  have from_part : ∀ rest : Table Value, rest ⊆ fields →
      Outcome table path (.mapping (fields.map fun field => (.string field.1, field.2)))
        (.mapping entries) (convertFields convert path entries
          (rest.map fun field => (.string field.1, field.2))) := by
    intro rest
    induction rest with
    | nil => exact fun _ => .ok
    | cons field rest ih =>
      intro part
      have member : field ∈ fields := part (List.mem_cons_self ..)
      have own := each field member
      rw [String.append_assoc] at own
      simp only [List.map_cons, convertFields, below_text]
      rw [String.append_assoc]
      refine Outcome.bind .ok fun _ same => ?_
      cases same
      have written : (.string field.1, field.2) ∈
          fields.map fun field => (Value.string field.1, field.2) :=
        List.mem_map_of_mem (f := fun field => (Value.string field.1, field.2)) member
      refine (own.of_inside (.field written)).bind fun _ _ => ?_
      exact (ih fun other listed => part (List.mem_cons_of_mem _ listed)).bind fun _ _ => .ok
  exact from_part fields fun _ member => member

theorem members_outcome {members : List Value} (typed : ∀ member ∈ members, MemberOver table member)
    (json : value.IsJson) (each : ∀ tag name data, .list [.string tag, .string name] ∈ members →
      taggedData? (.string tag) value = some data →
        Outcome table (path ++ "." ++ tag) (.string name) data
          (convert (path ++ "." ++ tag) (.string name) data) ∧
        ∀ out, convert (path ++ "." ++ tag) (.string name) data = .ok out →
          ∃ entries, out = .mapping entries) :
    Outcome table path (.list members) value
      (decodeMembers convert path (.list members) value members) := by
  have from_part : ∀ rest : List Value, rest ⊆ members → Outcome table path (.list members) value
      (decodeMembers convert path (.list members) value rest) := by
    intro rest
    induction rest with
    | nil => exact fun _ => .refuse (.enum typed) json
    | cons member rest ih =>
      intro part
      have listed : member ∈ members := part (List.mem_cons_self ..)
      have later := ih fun other listed => part (List.mem_cons_of_mem _ listed)
      obtain ⟨tag, rfl | ⟨name, rfl⟩⟩ := (typed member listed).shape
      · rw [decode_members_bare]
        split
        · exact .ok
        · exact later
      · rw [decode_members_pair]
        split
        · next data matched =>
          obtain ⟨own, shape⟩ := each tag name data listed matched
          rw [String.append_assoc] at own shape ⊢
          refine (own.of_inside (.tag listed matched)).bind fun out converted => ?_
          obtain ⟨entries, rfl⟩ := shape out converted
          exact .ok
        · exact later
  exact from_part members fun _ member => member

end Parts

theorem tagged_data_within {tag : String} {data : Value} (json : value.IsJson)
    (matched : taggedData? (.string tag) value = some data) :
    data.weight < value.weight ∧ data.IsJson := by
  unfold taggedData? at matched
  split at matched
  · next alone =>
    obtain rfl := Value.string_same_iff.mp alone
    cases matched
    refine ⟨by rw [Value.weight_string]; exact Nat.lt_add_left _ Nat.one_lt_two, ?_⟩
    intro part member
    rw [List.mem_singleton.mp member]
    rfl
  · split at matched
    · next own inner _ =>
      split at matched
      · cases matched
        refine ⟨Value.weight_lt ?_, json.item (by simp)⟩
        have positive := own.size_pos
        simp only [Value.size, Value.sizeItems]
        omega
      · cases matched
    · cases matched

/-- What decoding ends in, by induction on the value and, for one value, on the names for it. -/
theorem outcome_of_weight [UrlNormaliser] (proper : Proper table)
    (settled : ∀ name, Settled table name) {n : Nat} :
    ∀ {value : Value}, value.weight < n → value.IsJson → ∀ {type : Value} {path : String},
      TypeOver table type → Outcome table path type value (decode table path type value) := by
  induction n with
  | zero => exact fun small => absurd small (Nat.not_lt_zero _)
  | succ n ih =>
    intro value small json
    have nested : ∀ {type : Value} {path : String}, TypeOver table type → type.isString = false →
        Outcome table path type value (decode table path type value) := by
      intro type path typed other
      rw [decode, convert_eq decoding_local proper.described (description_of_over typed)]
      refine check_null_outcome.bind fun _ _ => ?_
      cases typed with
      | name => cases other
      | @enum members typed =>
        dsimp only
        split
        · unfold convertPlainEnum
          split
          · split
            · exact .ok
            · exact .refuse (.enum typed) json
          · exact .refuse (.enum typed) json
        · refine members_outcome typed json fun tag name data listed matched => ⟨?_, ?_⟩
          · obtain ⟨smaller, json⟩ := tagged_data_within json matched
            exact ih (by omega) json (.name name)
          · intro out converted
            rcases typed _ listed with ⟨_, ⟨⟩⟩ | ⟨_, _, entries, ⟨⟩, found⟩
            cases proper.entries found with
            | struct distinct each =>
              obtain ⟨_, item, _, rfl, _⟩ :=
                fields_of_within decoding_local proper each found converted
              exact ⟨_, rfl⟩
      | @struct fields distinct each =>
        cases value with
        | mapping entries =>
          refine (fields_outcome fun field member => ?_).bind fun _ _ => .ok
          have written : (.string field.1, field.2) ∈
              fields.map fun field => (Value.string field.1, field.2) :=
            List.mem_map_of_mem (f := fun field => (Value.string field.1, field.2)) member
          have smaller : ((Value.get? entries (.string field.1)).getD .null).weight <
            (Value.mapping entries).weight := (inward_weight (.field written)).1
          exact ih (by omega) (json.entry _) (each field member)
        | _ => exact .refuse (.struct distinct each) json
    suffices named : ∀ {name path : String},
        Outcome table path (.string name) value (decode table path (.string name) value) by
      intro type path typed
      cases typed with
      | name => exact named
      | enum each => exact nested (.enum each) rfl
      | struct distinct each => exact nested (.struct distinct each) rfl
    intro name path
    induction settled name with
    | intro name _ onward =>
      rw [decode, convert_eq decoding_local proper.described (.name name)]
      refine check_null_outcome.bind fun _ _ => ?_
      dsimp only [convertNamed]
      split
      · next suffix stem peeled =>
        cases suffix with
        | optional =>
          dsimp only [convertSuffix]
          split
          · exact .ok
          · exact (onward stem (.inr peeled)).of_same (.optional peeled)
        | array =>
          cases value with
          | list items =>
            refine (items_outcome peeled fun index item listed => ?_).bind fun _ _ => .ok
            have member := List.mem_of_getElem? listed
            have smaller := (inward_weight (.item peeled (.inl rfl) member)).1
            exact ih (by omega) (json.item member) (.name stem)
          | tuple => cases json _ (List.mem_cons_self ..)
          | _ => exact .mismatch json _
      · split
        · next s scalar => exact scalar_outcome scalar json
        · split
          · exact .refused .here (String.append_empty ..).symm
          · exact .refused .here (String.append_empty ..).symm
          · next type _ found =>
            refine Outcome.of_same ?_ (.entry found)
            have typed := proper.entries found
            cases typed with
            | name next => exact onward next (.inl found)
            | enum each => exact nested (.enum each) rfl
            | struct distinct each => exact nested (.struct distinct each) rfl

/-- What decoding the arguments or the result of an operation ends in, whatever is received. -/
theorem decode_outcome [UrlNormaliser] {final : Schema} {d : Document} (compiles : final.Compiles d)
    (unclashed : final.Unclashed) (unsuffixed : d.Unsuffixed) {name : String} {signature : Signature}
    (found : d.operations.get? name = some signature) {type : Value}
    (own : type = Document.textTable signature.args ∨ type = .string signature.returns)
    {received : Value} (json : received.IsJson) (path : String) :
    Outcome d.table path type received (decode d.table path type received) := by
  have describes := compiles.describes unclashed unsuffixed
  have typed : TypeOver d.table type := by
    rcases own with rfl | rfl
    · rw [compiles.get_operation] at found
      obtain ⟨o, last, rfl⟩ := Option.map_eq_some_iff.mp found
      have member : o ∈ final.operations := List.mem_reverse.mp (List.mem_of_find?_eq_some last)
      refine Document.text_table_over ?_
      simpa [Schema.ownSignature, Schema.DistinctNames, Table.keys, Schema.fieldText,
        Function.comp_def] using compiles.distinct_fields.2 o member
    · exact .name _
  exact outcome_of_weight (compiles.proper unclashed unsuffixed)
    (fun _ => compiles.settled describes (Nat.lt_succ_self _)) (Nat.lt_succ_self _) json typed

def bookings : String :=
  "type Leg \x7b at: datetime, seat: Seat? \x7d
type Seat enum \x7b any, numbered \x7b row: int \x7d \x7d
fn book(legs: Leg[])"

def booking : Value :=
  let leg (seat : Value) := Value.mapping [(.string "at", .string "2024-02-29T23:30:00Z"), (.string "seat", seat)]
  .mapping [(.string "legs", .list [leg (.string "any"),
    leg (.list [.string "numbered", .mapping [(.string "row", .string "A")]])])]

theorem booking_outcome : ∃ _ : UrlNormaliser, ∃ final d signature, Schema.Compiles final d ∧
    d.operations.get? "book" = some signature ∧
      Outcome d.table "book.args" (Document.textTable signature.args) booking
        (decode d.table "book.args" (Document.textTable signature.args) booking) ∧
      decode d.table "book.args" (Document.textTable signature.args) booking =
        .error (.error (.mismatch "book.args.legs[1].seat.numbered.row" "int" "\"A\"")) := by
  let urls : UrlNormaliser := .refusing
  have checked : ((Schema.compiled? bookings).bind fun result =>
      (result.2.operations.get? "book").map fun signature =>
        decide (result.1.Unclashed ∧ result.2.Unsuffixed ∧
          failure? (decode result.2.table "book.args" (Document.textTable signature.args) booking) =
            some (.error (.mismatch "book.args.legs[1].seat.numbered.row" "int" "\"A\"")))) =
      some true := by
    simp only [Schema.compiled?, SchemaTree.parse_by_chars]
    decide +kernel
  obtain ⟨⟨final, d⟩, found, checked⟩ := Option.bind_eq_some_iff.mp checked
  obtain ⟨signature, known, checked⟩ := Option.map_eq_some_iff.mp checked
  obtain ⟨unclashed, unsuffixed, failed⟩ := of_decide_eq_true checked
  have compiles := Schema.compiles_of_compiled found
  have json : booking.IsJson := by
    unfold Value.IsJson
    decide
  exact ⟨urls, final, d, signature, compiles, known,
    decode_outcome compiles unclashed unsuffixed known (.inl rfl) json "book.args",
    error_of_failure failed⟩

/-- A time is moved out of the calendar, and a struct whose name reads as that of an array is no
struct. -/
theorem decoding_fails : ∃ _ : UrlNormaliser,
    ((Schema.compiled? "fn f(d: datetime)").bind fun (_, d) =>
      failure? (decode d.table "d" (.string "datetime") (.string "0001-01-01T00:00:00+01:00"))) =
        some .outsideCalendar ∧
    ((Schema.compiled? "type E enum \x7b \"x[]\" \x7b a: int \x7d \x7d\nfn f(e: E)").bind fun (_, d) =>
      failure? (decode d.table "e" (.string "E") (.list [.string "x[]", .list []]))) =
        some .decodedNoRecord := by
  refine ⟨.refusing, ?_⟩
  simp only [Schema.compiled?, SchemaTree.parse_by_chars]
  decide +kernel

end ApiSchema.Codec
