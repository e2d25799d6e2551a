import ApiSchema.Proofs.Codec.Proper
import ApiSchema.Proofs.Document.Describing

/-! The table of types of an accepted schema is well-formed, if no entry has been taken by another
type and no name in it reads as that of a type with a suffix. -/

namespace ApiSchema

open Codec

namespace Document

theorem text_table_over {table : TypeTable} {fields : Table String} (distinct : fields.keys.Nodup) :
    TypeOver table (textTable fields) := by
  have typed : TypeOver table (.mapping ((fields.map fun field =>
      (field.1, Value.string field.2)).map fun field => (.string field.1, field.2))) := by
    refine .struct ?_ ?_
    · simpa [Table.keys, Function.comp_def] using distinct
    · intro field member
      obtain ⟨_, _, rfl⟩ := List.mem_map.mp member
      exact .name _
  exact typed

end Document

namespace Schema.Compiles

variable {final : Schema} {d : Document}

theorem definition_of_alias (compiles : final.Compiles d) {name next : String}
    (link : Alias d.table name next) :
    ∃ a ∈ final.aliases, a.name = name ∧ final.typeName a.type = next := by
  unfold Alias at link
  rw [Document.get_table] at link
  obtain ⟨entry, found, text⟩ := Option.map_eq_some_iff.mp link
  rcases compiles.entry_cases found with ⟨a, listed, named, rfl⟩ | ⟨t, _, same⟩ | ⟨e, _, same⟩
  · exact ⟨a, listed, named, Value.string.inj text⟩
  · cases same
    cases text
  · cases same
    cases text

theorem reference_of_alias (compiles : final.Compiles d) (unclashed : final.Unclashed)
    (describes : Describes d.table final) {name next : String} (link : Alias d.table name next)
    {type : Value} (further : Value.get? d.table (.string next) = some type) :
    ∃ a location, final.definition? name = some a ∧ a.type = ⟨[], .reference next location⟩ := by
  obtain ⟨files, file, source, tree, parsed, accepted⟩ := compiles.accepted
  obtain ⟨named, expanded, stages⟩ := accepted_of_analyse accepted
  obtain ⟨b, listed, rfl, rfl⟩ := compiles.definition_of_alias link
  have written := List.mem_of_mem_filter listed
  cases defined : final.definition? b.name with
  | none =>
    have other := List.find?_eq_none.mp defined b written
    simp at other
  | some a =>
    obtain ⟨member, named⟩ := name_of_definition defined
    have texts := stages.type_name_of_name (treelike_of_tree tree) member written named
    rw [← texts] at further ⊢
    obtain ⟨aName, ⟨suffixes, base⟩, notes, place⟩ := a
    cases suffixes with
    | cons suffix rest =>
      rw [type_name_cons, describes.no_entry_suffix] at further
      cases further
    | nil =>
      have clash : base.IsNested → False := fun nested => by
        have own := compiles.own_name member (by cases base <;> trivial)
        rw [type_name_base] at own
        refine unclashed base (stages.collects (known_of_declares (.definition member)) nested) ?_
        exact ⟨b, listed, named.symm.trans own.symm⟩
      cases base with
      | primitive kind =>
        change Value.get? d.table (.string kind.name) = _ at further
        rw [describes.no_entry_primitive] at further
        cases further
      | struct t => exact (clash trivial).elim
      | enum e => exact (clash trivial).elim
      | reference name location => exact ⟨_, location, rfl, rfl⟩

theorem trail_of_aliases (compiles : final.Compiles d) (unclashed : final.Unclashed)
    (describes : Describes d.table final) {name last : String}
    (chain : Relation.TransGen (Alias d.table) name last) {type : Value}
    (further : Value.get? d.table (.string last) = some type) (place : Location) :
    ∃ a ds ds', final.Trail (.reference name place) (a :: ds) ∧
      final.Trail (.reference last place) ds' ∧ ds'.length ≤ ds.length := by
  induction chain using Relation.TransGen.head_induction_on with
  | single link =>
    obtain ⟨a, location, defined, shape⟩ := compiles.reference_of_alias unclashed describes link further
    have member := (name_of_definition defined).1
    obtain ⟨ds, trail⟩ := describes.trails (known_of_declares (.definition member))
    refine ⟨a, ds, ds, .reference defined trail, ?_, Nat.le_refl _⟩
    rw [shape] at trail
    exact trail.moved place
  | head link chain ih =>
    obtain ⟨b, ds, ds', onward, ending, shorter⟩ := ih
    obtain ⟨_, step, _⟩ := Relation.TransGen.head'_iff.mp chain
    obtain ⟨a, location, defined, shape⟩ := compiles.reference_of_alias unclashed describes link step
    refine ⟨a, b :: ds, ds', .reference defined ?_, ending, Nat.le_succ_of_le shorter⟩
    rw [shape]
    exact onward.moved location

theorem proper (compiles : final.Compiles d) (unclashed : final.Unclashed)
    (unsuffixed : d.Unsuffixed) : Proper d.table := by
  have describes := compiles.describes unclashed unsuffixed
  constructor
  · intro name type found
    rw [Document.get_table] at found
    obtain ⟨entry, entered, rfl⟩ := Option.map_eq_some_iff.mp found
    rcases compiles.entry_cases entered with ⟨a, _, _, rfl⟩ | ⟨t, _, same⟩ | ⟨e, member, same⟩
    · exact .name _
    · cases same
      refine Document.text_table_over ?_
      rw [field_texts_eq (compiles.distinct_fields.1 t)]
      simpa [DistinctNames, Table.keys, fieldText, Function.comp_def] using
        compiles.distinct_fields.1 t
    · cases same
      have known := compiles.collected_known member
      refine .enum fun member listed => ?_
      obtain ⟨_, paired, rfl⟩ := List.mem_map.mp listed
      obtain ⟨v, written, rfl⟩ := List.mem_map.mp paired
      cases data : v.data with
      | none => exact .inl ⟨v.text, rfl⟩
      | some t =>
        have inside : final.Known (.struct t) := known.reaches (.single (.value written data))
        exact .inr ⟨v.text, (final.struct t).name, _, rfl, describes.struct inside⟩
  · exact describes.plain
  · intro name cycle
    obtain ⟨_, link, _⟩ := Relation.TransGen.head'_iff.mp cycle
    obtain ⟨a, ds, ds', trail, again, shorter⟩ :=
      compiles.trail_of_aliases unclashed describes cycle link default
    have equal := congrArg List.length (trail.unique again)
    simp only [List.length_cons] at equal
    omega

theorem entry_of_definition (compiles : final.Compiles d) (describes : Describes d.table final)
    {a : Definition} (member : a ∈ final.definitions) :
    ∃ type, Value.get? d.table (.string a.name) = some type := by
  have known := known_of_declares (.definition member)
  by_cases nested : a.type.isNested = true
  · have own := compiles.own_name member nested
    obtain ⟨name, ⟨suffixes, base⟩, notes, place⟩ := a
    simp only [TypeUse.isNested, Bool.and_eq_true, List.isEmpty_iff] at nested
    obtain ⟨rfl, nested⟩ := nested
    rw [type_name_base] at own
    rw [← own]
    cases base with
    | struct t => exact ⟨_, describes.struct known⟩
    | enum e => exact ⟨_, describes.enum known⟩
    | _ => cases nested
  · have taken : final.IsAlias a.name :=
      ⟨a, List.mem_filter.mpr ⟨member, by simpa using nested⟩, rfl⟩
    obtain ⟨last, _, _, found⟩ := find_alias_some taken
    rw [Document.get_table, compiles.types, get_add_definitions, found]
    exact ⟨_, rfl⟩

section Settled

variable (compiles : final.Compiles d) (describes : Describes d.table final)

include describes

theorem settled_type_name {base : TypeBase} {suffixes : List Suffix}
    (settled : Settled d.table (final.baseName base)) :
    Settled d.table (final.typeName ⟨suffixes, base⟩) := by
  induction suffixes with
  | nil => exact settled
  | cons suffix rest ih =>
    rw [type_name_cons]
    refine ⟨_, fun next passes => ?_⟩
    rcases passes with link | peeled
    · unfold Alias at link
      rw [describes.no_entry_suffix] at link
      cases link
    · rw [TypeText.peel?_append] at peeled
      cases peeled
      exact ih

include compiles

/-- The names that a value of a base is passed to end with the definitions on its trail. -/
theorem settled_of_trail {base : TypeBase} {ds : List Definition} (trail : final.Trail base ds)
    (known : final.Known base) : Settled d.table (final.baseName base) := by
  induction trail with
  | @primitive kind =>
    refine ⟨_, fun next passes => ?_⟩
    rcases passes with link | peeled
    · unfold Alias baseName at link
      rw [describes.no_entry_primitive] at link
      cases link
    · rw [baseName, TypeText.peel?_primitive] at peeled
      cases peeled
  | @struct t =>
    refine ⟨_, fun next passes => ?_⟩
    rcases passes with link | peeled
    · unfold Alias baseName at link
      rw [describes.struct known] at link
      cases link
    · rw [baseName, (describes.plain_struct known).1] at peeled
      cases peeled
  | @enum e =>
    refine ⟨_, fun next passes => ?_⟩
    rcases passes with link | peeled
    · unfold Alias baseName at link
      rw [describes.enum known] at link
      cases link
    · rw [baseName, (describes.plain_enum known).1] at peeled
      cases peeled
  | @reference name location a ds defined _ ih =>
    obtain ⟨files, file, source, tree, parsed, accepted⟩ := compiles.accepted
    obtain ⟨named, expanded, stages⟩ := accepted_of_analyse accepted
    obtain ⟨member, rfl⟩ := name_of_definition defined
    refine ⟨_, fun next passes => ?_⟩
    rcases passes with link | peeled
    · obtain ⟨b, listed, named, rfl⟩ := compiles.definition_of_alias link
      have texts := stages.type_name_of_name (treelike_of_tree tree) member
        (List.mem_of_mem_filter listed) named.symm
      rw [← texts]
      exact settled_type_name describes (ih (known_of_declares (.definition member)))
    · obtain ⟨_, found⟩ := compiles.entry_of_definition describes member
      rw [baseName, (describes.plain found).1] at peeled
      cases peeled

theorem settled {length : Nat} : ∀ {name : String}, name.length < length → Settled d.table name := by
  induction length with
  | zero => exact fun short => absurd short (Nat.not_lt_zero _)
  | succ length ih =>
    intro name short
    refine ⟨_, fun next passes => ?_⟩
    rcases passes with link | peeled
    · obtain ⟨a, listed, _, rfl⟩ := compiles.definition_of_alias link
      have known := known_of_declares (.definition (List.mem_of_mem_filter listed))
      obtain ⟨ds, trail⟩ := describes.trails known
      exact settled_type_name describes (compiles.settled_of_trail describes trail known)
    · have shorter := (peel_starts peeled).2
      exact ih (by omega)

end Settled

end Schema.Compiles

end ApiSchema
