import ApiSchema.Proofs.Analysis.Wording
import ApiSchema.Proofs.Codec.Outcome
import ApiSchema.Proofs.Codec.Failing

/-! In the document of an accepted schema every text is that of a type which the codec knows. The
struct with the data of a member is known unless the text of the member ends in a suffix. -/

namespace ApiSchema

open Codec

namespace Document

variable {d : Document}

/-- The texts that stand for types in the two tables. -/
inductive Writes (d : Document) : String → Prop where
  | other {name text} (found : d.types.get? name = some (.text text)) : Writes d text
  | field {name fields key text} (found : d.types.get? name = some (.struct fields))
    (member : (key, text) ∈ fields) : Writes d text
  | argument {name signature key text} (found : d.operations.get? name = some signature)
    (member : (key, text) ∈ signature.args) : Writes d text
  | returns {name signature} (found : d.operations.get? name = some signature) :
    Writes d signature.returns

/-- A struct has the data of a member of an enum. -/
def Carries (d : Document) (enum text struct : String) : Prop :=
  ∃ members, d.types.get? enum = some (.enum members) ∧ (text, some struct) ∈ members

/-- The types that the tables are made of. -/
inductive Mentions (d : Document) : Value → Prop where
  | text {text} (writes : d.Writes text) : Mentions d (.string text)
  | entry {name type} (found : d.types.get? name = some type) : Mentions d (descriptionValue type)
  | arguments {name signature} (found : d.operations.get? name = some signature) :
    Mentions d (textTable signature.args)

section Closing

variable (writes : ∀ text, d.Writes text → Resolves d.table text)
  (carries : ∀ enum text struct, d.Carries enum text struct → Resolves d.table struct)

theorem closed_text_table {table : TypeTable} {fields : Table String}
    (each : ∀ key text, (key, text) ∈ fields → Resolves table text) :
    Closed table (textTable fields) := by
  refine .struct fun key type member => ?_
  obtain ⟨_, listed, same⟩ := List.mem_map.mp member
  obtain ⟨⟨name, text⟩, written, rfl⟩ := List.mem_map.mp listed
  cases same
  exact .name (each name text written)

include writes carries

theorem closed_entry {name : String} {type : TypeDescription} (found : d.types.get? name = some type) :
    Closed d.table (descriptionValue type) := by
  cases type with
  | text text => exact .name (writes text (.other found))
  | enum members =>
    refine .enum fun member listed tag type pair => ?_
    obtain ⟨⟨text, data⟩, written, rfl⟩ := List.mem_map.mp listed
    cases data with
    | none => cases pair
    | some struct =>
      cases pair
      exact .name (carries name text struct ⟨members, found, written⟩)
  | struct fields => exact closed_text_table fun key text member => writes text (.field found member)

theorem closed_of_mentions {type : Value} (mentioned : d.Mentions type) : Closed d.table type := by
  cases mentioned with
  | text said => exact .name (writes _ said)
  | entry found => exact closed_entry writes carries found
  | arguments found =>
    exact closed_text_table fun key text member => writes text (.argument found member)

theorem knows_of_resolves [UrlNormaliser] {type : Value} (mentioned : d.Mentions type)
    (path : String) (value : Value) :
    Knows (encode d.table path type value) ∧ Knows (decode d.table path type value) := by
  have entries : ∀ name type, Value.get? d.table (.string name) = some type →
      Closed d.table type := by
    intro name type found
    rw [get_table] at found
    obtain ⟨entry, entered, rfl⟩ := Option.map_eq_some_iff.mp found
    exact closed_entry writes carries entered
  have closed := closed_of_mentions writes carries mentioned
  exact ⟨convert_knows encoding_raising entries closed path value,
    convert_knows decoding_raising entries closed path value⟩

end Closing

end Document

namespace Schema.Compiles

variable {final : Schema} {d : Document}

theorem has_collected (compiles : final.Compiles d) {base : TypeBase} (member : base ∈ final.collected) :
    ∃ type, d.types.get? (final.baseName base) = some type := by
  rw [compiles.types, get_add_definitions]
  have key : final.baseName base ∈ final.collectedEntries.keys := by
    rw [collected_entries_keys]
    exact List.mem_map_of_mem member
  have own : (final.collectedEntries.get? (final.baseName base)).isSome := Table.has_iff.mpr key
  obtain ⟨type, found⟩ := Option.isSome_iff_exists.mp own
  rw [found]
  cases (final.aliases.reverse.find? (·.name == final.baseName base)) with
  | none => exact ⟨_, rfl⟩
  | some a => exact ⟨_, rfl⟩

theorem has_alias (compiles : final.Compiles d) {a : Definition} (member : a ∈ final.aliases) :
    ∃ type, d.types.get? a.name = some type := by
  obtain ⟨last, _, _, found⟩ := find_alias_some ⟨a, member, rfl⟩
  rw [compiles.types, get_add_definitions, found]
  exact ⟨_, rfl⟩

theorem has_definition (compiles : final.Compiles d) {a : Definition} (member : a ∈ final.definitions) :
    ∃ type, d.types.get? a.name = some type := by
  obtain ⟨files, file, source, tree, parsed, accepted⟩ := compiles.accepted
  obtain ⟨named, expanded, stages⟩ := accepted_of_analyse accepted
  cases nested : a.type.isNested with
  | false => exact compiles.has_alias (List.mem_filter.mpr ⟨member, by rw [nested]; rfl⟩)
  | true =>
    have known := known_of_declares (.definition member)
    have own := compiles.own_name member nested
    obtain ⟨name, ⟨suffixes, base⟩, notes, place⟩ := a
    simp only [TypeUse.isNested, Bool.and_eq_true, List.isEmpty_iff] at nested
    obtain ⟨rfl, nested⟩ := nested
    rw [type_name_base] at own
    rw [← own]
    exact compiles.has_collected (stages.collects known (by cases base <;> trivial))

theorem stated_of_writes (compiles : final.Compiles d) {text : String} (writes : d.Writes text) :
    ∃ t, final.Stated t ∧ text = final.typeName t := by
  cases writes with
  | other found =>
    rcases compiles.entry_cases found with ⟨a, listed, _, same⟩ | ⟨t, _, same⟩ | ⟨e, _, same⟩
    · cases same
      exact ⟨_, .definition (List.mem_of_mem_filter listed), rfl⟩
    · cases same
    · cases same
  | field found written =>
    rcases compiles.entry_cases found with ⟨a, _, _, same⟩ | ⟨t, member, same⟩ | ⟨e, _, same⟩
    · cases same
    · cases same
      rw [field_texts_eq (compiles.distinct_fields.1 t)] at written
      obtain ⟨id, held, same⟩ := List.mem_map.mp written
      cases same
      exact ⟨_, .field (compiles.collected_known member) held, rfl⟩
    · cases same
  | argument found written =>
    rw [compiles.get_operation] at found
    obtain ⟨o, last, rfl⟩ := Option.map_eq_some_iff.mp found
    obtain ⟨id, held, same⟩ := List.mem_map.mp written
    cases same
    exact ⟨_, .argument (List.mem_reverse.mp (List.mem_of_find?_eq_some last)) held, rfl⟩
  | returns found =>
    rw [compiles.get_operation] at found
    obtain ⟨o, last, rfl⟩ := Option.map_eq_some_iff.mp found
    exact ⟨_, .returns (List.mem_reverse.mp (List.mem_of_find?_eq_some last)), rfl⟩

theorem resolves_of_entry {name : String} {type : TypeDescription}
    (plain : TypeText.peel? name = none) (found : d.types.get? name = some type) :
    Resolves d.table name := by
  have entry : Value.get? d.table (.string name) = some (Document.descriptionValue type) := by
    rw [Document.get_table, found]
    rfl
  exact .entry plain entry (by cases type <;> nofun)

theorem resolves_of_stated (compiles : final.Compiles d) {t : TypeUse} (stated : final.Stated t) :
    Resolves d.table (final.typeName t) := by
  obtain ⟨files, file, source, tree, parsed, accepted⟩ := compiles.accepted
  obtain ⟨named, expanded, stages⟩ := accepted_of_analyse accepted
  have treelike := treelike_of_tree tree
  have worded := worded_of_parse parsed
  have known := stated.known
  have base : Resolves d.table (final.baseName t.base) := by
    have ends := stages.stated_name_ends treelike worded stated
    cases shape : t.base with
    | primitive kind => exact .scalar (TypeText.peel?_primitive kind) (scalar_of_primitive kind)
    | struct u =>
      rw [shape] at known ends
      obtain ⟨_, found⟩ := compiles.has_collected (stages.collects known trivial)
      exact resolves_of_entry (ends trivial).not_peeled found
    | enum e =>
      rw [shape] at known ends
      obtain ⟨_, found⟩ := compiles.has_collected (stages.collects known trivial)
      exact resolves_of_entry (ends trivial).not_peeled found
    | reference name location =>
      rw [shape] at known
      obtain ⟨a, defined⟩ := Option.isSome_iff_exists.mp
        (stages.bound treelike.grounded name location known)
      obtain ⟨member, rfl⟩ := name_of_definition defined
      obtain ⟨first, written, same⟩ := stages.exists_written treelike member
      have ends := EndsInWord.of_word (worded.definitions first written)
      rw [same] at ends
      obtain ⟨_, found⟩ := compiles.has_definition member
      exact resolves_of_entry ends.not_peeled found
  obtain ⟨suffixes, innermost⟩ := t
  clear stated known
  induction suffixes with
  | nil => exact base
  | cons suffix rest ih =>
    rw [type_name_cons]
    exact .suffix (TypeText.peel?_append _ _) (ih base)

theorem member_of_carries (compiles : final.Compiles d) {enum text struct : String}
    (carries : d.Carries enum text struct) :
    ∃ e v t, .enum e ∈ final.collected ∧ v ∈ (final.enum e).values ∧ v.data = some t ∧
      enum = (final.enum e).name ∧ text = v.text ∧ struct = (final.struct t).name ∧
        d.types.get? enum = some (.enum (final.enumMembers (final.enum e))) := by
  obtain ⟨members, found, written⟩ := carries
  rcases compiles.entry_cases found with ⟨a, _, _, same⟩ | ⟨t, _, same⟩ | ⟨e, member, same⟩
  · cases same
  · cases same
  · cases same
    obtain ⟨v, listed, same⟩ := List.mem_map.mp written
    cases data : v.data with
    | none =>
      rw [data] at same
      cases same
    | some t =>
      rw [data] at same
      cases same
      exact ⟨e, v, t, member, listed, data, rfl, rfl, rfl, found⟩

theorem carried_name (compiles : final.Compiles d) {enum text struct : String}
    (carries : d.Carries enum text struct) :
    struct = enum ++ Text.capitalised text ∧
      (TypeText.peel? (Text.capitalised text) = none → Resolves d.table struct) := by
  obtain ⟨e, v, t, member, listed, data, rfl, rfl, rfl, _⟩ := compiles.member_of_carries carries
  obtain ⟨files, file, source, tree, parsed, accepted⟩ := compiles.accepted
  obtain ⟨named, expanded, stages⟩ := accepted_of_analyse accepted
  have treelike := treelike_of_tree tree
  have known := compiles.collected_known member
  have called := stages.member_name treelike known listed data
  refine ⟨called, fun plain => ?_⟩
  have inside : final.Known (.struct t) := known.reaches (.single (.value listed data))
  obtain ⟨_, found⟩ := compiles.has_collected (stages.collects inside trivial)
  refine resolves_of_entry ?_ found
  rw [called]
  exact (stages.enum_name_ends treelike (worded_of_parse parsed) known).not_peeled_append plain

theorem resolves_of_knows [UrlNormaliser] (compiles : final.Compiles d)
    (knows : ∀ type, d.Mentions type → ∀ path value, Knows (decode d.table path type value))
    {enum text struct : String} (carries : d.Carries enum text struct) :
    Resolves d.table struct := by
  obtain ⟨e, v, t, member, listed, data, rfl, rfl, rfl, found⟩ := compiles.member_of_carries carries
  obtain ⟨files, file, source, tree, parsed, accepted⟩ := compiles.accepted
  obtain ⟨named, expanded, stages⟩ := accepted_of_analyse accepted
  by_contra unresolved
  obtain ⟨value, _, unknown⟩ := unknown_of_not_resolves decoding_local d.described_table
    (Nat.lt_succ_self _) unresolved
  obtain ⟨place, name, failed⟩ := unknown ("" ++ "." ++ v.text)
  have known := knows _ (.entry found) "" (.list [.string v.text, value])
  refine known.known place name ?_
  rw [Document.enum_value_eq, decode, convert_eq decoding_local d.described_table
    (enum_description final e), convert_enum]
  have mixed : ((final.enum e).values.map (memberType final)).all Value.isString = false := by
    refine Bool.eq_false_iff.mpr fun plain => ?_
    have own := List.all_eq_true.mp plain _ (List.mem_map_of_mem (f := memberType final) listed)
    rw [member_is_string, data] at own
    cases own
  have behind : taggedData? (.string v.text) (.list [.string v.text, value]) = some value := by
    unfold taggedData?
    rw [Value.string_not_same_list, if_neg Bool.false_ne_true]
    exact if_pos (Value.same_string_iff.mpr rfl)
  obtain ⟨rest, _, taken⟩ := decode_members_at (s := final) (Codec.convert .decoding d.table) ""
    (stages.distinct_values (compiles.collected_known member)) listed
    (.inr ⟨value, rfl⟩ : Value.list [.string v.text, value] = .string v.text ∨ _)
  rw [if_neg (by rw [mixed]; exact Bool.false_ne_true)]
  change decodeMembers _ "" _ _ _ = _
  rw [taken, memberType, data]
  dsimp only
  rw [decode_members_pair, behind]
  dsimp only
  rw [failed]
  rfl

/-- Every text in the tables of an accepted source resolves. The name of the data of a member is
that of the enum in front of the text of the member, and resolves if the text has no suffix at its
end. No conversion by a type of the tables ends in an unknown type, exactly if all of these names
resolve. -/
theorem types_resolve [UrlNormaliser] (compiles : final.Compiles d) :
    (∀ text, d.Writes text → Resolves d.table text) ∧
      (∀ enum text struct, d.Carries enum text struct →
        struct = enum ++ Text.capitalised text ∧
          (TypeText.peel? (Text.capitalised text) = none → Resolves d.table struct)) ∧
      ((∀ enum text struct, d.Carries enum text struct → Resolves d.table struct) ↔
        ∀ type, d.Mentions type → ∀ path value,
          Knows (encode d.table path type value) ∧ Knows (decode d.table path type value)) := by
  have writes : ∀ text, d.Writes text → Resolves d.table text := by
    intro text said
    obtain ⟨t, stated, rfl⟩ := compiles.stated_of_writes said
    exact compiles.resolves_of_stated stated
  refine ⟨writes, fun enum text struct carries => compiles.carried_name carries, ?_, ?_⟩
  · exact fun carries type mentioned => Document.knows_of_resolves writes carries mentioned
  · intro knows enum text struct carries
    exact compiles.resolves_of_knows (fun type mentioned path value =>
      (knows type mentioned path value).2) carries

theorem bookings_resolve : ∃ final d, Schema.Compiles final d ∧
    d.Carries "Seat" "numbered" "SeatNumbered" ∧ Resolves d.table "SeatNumbered" ∧
      ∀ text, d.Writes text → Resolves d.table text := by
  have checked : ((Schema.compiled? bookings).map fun result =>
      decide (result.2.types.get? "Seat" =
        some (.enum [("any", none), ("numbered", some "SeatNumbered")]))) = some true := by
    simp only [Schema.compiled?, SchemaTree.parse_by_chars]
    decide +kernel
  obtain ⟨⟨final, d⟩, compiled, found⟩ := Option.map_eq_some_iff.mp checked
  have compiles := compiles_of_compiled compiled
  have carries : d.Carries "Seat" "numbered" "SeatNumbered" :=
    ⟨_, of_decide_eq_true found, List.mem_cons_of_mem _ (List.mem_cons_self ..)⟩
  let urls : UrlNormaliser := .refusing
  obtain ⟨texts, members, _⟩ := types_resolve compiles
  exact ⟨final, d, compiles, carries, (members _ _ _ carries).2 (by decide), texts⟩

/-- The data of a member whose text ends in a suffix is looked up without the suffix. -/
theorem suffixed_data_unknown : ∃ _ : UrlNormaliser,
    ((Schema.compiled? "type E enum \x7b \"x?\" \x7b a: int \x7d \x7d\nfn f(e: E)").bind fun (_, d) =>
      (d.operations.get? "f").bind fun signature =>
        failure? (decode d.table "f.args" (Document.textTable signature.args)
          (.mapping [(.string "e", .list [.string "x?", .mapping [(.string "a", .int 1)]])]))) =
      some (.error (.unknownType "f.args.e.x?" "EX")) := by
  refine ⟨.refusing, ?_⟩
  simp only [Schema.compiled?, SchemaTree.parse_by_chars]
  decide +kernel

end Schema.Compiles

end ApiSchema
