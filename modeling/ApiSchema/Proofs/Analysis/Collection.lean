import ApiSchema.Proofs.Analysis.Ending
import ApiSchema.Proofs.Analysis.Labelling
import ApiSchema.Proofs.Analysis.Redeclaration
import ApiSchema.Proofs.Schema.Unexpanded

/-! The structs and enums that are collected from an accepted schema: each once, each behind a
declaration, and no two of one name. -/

namespace ApiSchema.Schema

variable {s : Schema}

theorem mem_firsts_aux {ids : List Nat} {id : Nat} :
    ∀ kept : List Nat, id ∈ ids.foldl (fun kept id => if kept.contains id then kept else kept ++ [id])
      kept ↔ id ∈ kept ∨ id ∈ ids := by
  induction ids with
  | nil => simp
  | cons first rest ih =>
    intro kept
    rw [List.foldl_cons, ih]
    split
    · next known =>
      have : first ∈ kept := by simpa using known
      grind
    · simp [or_assoc]

theorem mem_firsts {ids : List Nat} {id : Nat} : id ∈ firsts ids ↔ id ∈ ids := by
  rw [firsts, mem_firsts_aux]
  simp

theorem firsts_nodup (ids : List Nat) : (firsts ids).Nodup := by
  have step : ∀ (ids kept : List Nat), kept.Nodup →
      (ids.foldl (fun kept id => if kept.contains id then kept else kept ++ [id]) kept).Nodup := by
    intro ids
    induction ids with
    | nil => exact fun _ distinct => distinct
    | cons first rest ih =>
      intro kept distinct
      rw [List.foldl_cons]
      apply ih
      split
      · exact distinct
      · next new =>
        have : first ∉ kept := by simpa using new
        exact List.nodup_append.mpr ⟨distinct, List.nodup_singleton _, by grind⟩
  exact step ids [] .nil

theorem known_of_visits_struct {t : StructId} (visits : s.Visits (.struct t)) :
    s.Known (.struct t) := by
  cases visits with
  | inside declared meets =>
    obtain ⟨part, contains, shown⟩ := meets
    cases shown
    exact (known_of_declares declared).reaches contains.reaches

theorem known_of_visits_enum {e : EnumId} (visits : s.Visits (.enum e)) : s.Known (.enum e) := by
  cases visits with
  | inside declared meets =>
    obtain ⟨part, contains, shown⟩ := meets
    cases shown
    exact (known_of_declares declared).reaches contains.reaches

theorem collect_walk (s : Schema) : s.collectTypes.walk = s.walk := by
  have same := s.collect_same_types
  simp only [walk, same.walk_from, same.walk_operation]
  rfl

def collected (s : Schema) : List TypeBase :=
  s.structOrder.map .struct ++ s.enumOrder.map .enum

theorem known_of_collected (grounded : s.Grounded) {base : TypeBase}
    (member : base ∈ s.collectTypes.collected) : s.Known base ∧ base.IsNested := by
  rcases List.mem_append.mp member with found | found
  · obtain ⟨t, present, rfl⟩ := List.mem_map.mp found
    obtain ⟨v, met, same⟩ := List.mem_filterMap.mp (mem_firsts.mp present)
    cases v <;> cases same
    exact ⟨known_of_visits_struct ((mem_walk grounded).mp met), trivial⟩
  · obtain ⟨e, present, rfl⟩ := List.mem_map.mp found
    obtain ⟨v, met, same⟩ := List.mem_filterMap.mp (mem_firsts.mp present)
    cases v <;> cases same
    exact ⟨known_of_visits_enum ((mem_walk grounded).mp met), trivial⟩

theorem met_of_known (grounded : s.Grounded) {base : TypeBase} {v : Visit} (known : s.Known base)
    (nested : base.IsNested) (shown : s.Shows base v) : v ∈ s.walk.visits := by
  obtain ⟨root, declared, contains | ⟨_, _, rfl, _⟩⟩ := known.inside
  · exact (mem_walk grounded).mpr (.inside declared ⟨_, contains, shown⟩)
  · cases nested

theorem mem_collected (grounded : s.Grounded) {base : TypeBase} (known : s.Known base)
    (nested : base.IsNested) : base ∈ s.collectTypes.collected := by
  cases base with
  | struct t =>
    have met := met_of_known grounded known nested .struct
    refine List.mem_append_left _ (List.mem_map_of_mem (mem_firsts.mpr ?_))
    exact List.mem_filterMap.mpr ⟨_, met, rfl⟩
  | enum e =>
    have met := met_of_known grounded known nested .enum
    refine List.mem_append_right _ (List.mem_map_of_mem (mem_firsts.mpr ?_))
    exact List.mem_filterMap.mpr ⟨_, met, rfl⟩
  | primitive | reference => cases nested

theorem has_repeats_iff {names : List String} : hasRepeats names = false ↔ names.Nodup := by
  induction names with
  | nil => exact ⟨fun _ => .nil, fun _ => rfl⟩
  | cons name rest ih =>
    rw [hasRepeats, Bool.or_eq_false_iff, List.nodup_cons, ih]
    simp

theorem check_repeated_ok {visits : List Visit} :
    s.checkRepeatedValues visits = .ok () ↔
      ∀ e, .enum e ∈ visits → ((s.enum e).values.map (·.text)).Nodup := by
  induction visits with
  | nil => simp [checkRepeatedValues]
  | cons v rest ih =>
    cases v with
    | enum e =>
      simp only [checkRepeatedValues]
      cases repeated : hasRepeats ((s.enum e).values.map (·.text)) with
      | true =>
        refine ⟨fun passed => ?_, fun all => ?_⟩
        · rw [if_pos rfl] at passed
          cases passed
        · have distinct := has_repeats_iff.mpr (all e (List.mem_cons_self ..))
          cases repeated.symm.trans distinct
      | false =>
        have distinct := has_repeats_iff.mp repeated
        rw [if_neg (by simp), ih]
        constructor
        · intro all other member
          rcases List.mem_cons.mp member with same | later
          · cases same
            exact distinct
          · exact all other later
        · exact fun all other later => all other (List.mem_cons_of_mem _ later)
    | _ => simp [checkRepeatedValues, ih]

theorem collected_nodup (s : Schema) : s.collectTypes.collected.Nodup := by
  refine List.nodup_append.mpr ⟨?_, ?_, ?_⟩
  · exact (firsts_nodup _).map fun _ _ same => TypeBase.struct.inj same
  · exact (firsts_nodup _).map fun _ _ same => TypeBase.enum.inj same
  · intro base found other found' same
    obtain ⟨t, _, rfl⟩ := List.mem_map.mp found
    obtain ⟨e, _, rfl⟩ := List.mem_map.mp found'
    cases same

theorem nested_or_plain {base base' : TypeBase} (same : s.shape 0 base = s.shape 0 base') :
    base.IsNested ∧ base'.IsNested ∨ ∀ g : Schema, g.baseName base = g.baseName base' ∧
      ∀ depth, g.shape depth base = g.shape depth base' := by
  cases base <;> cases base' <;> simp_all [TypeBase.IsNested, baseName]

theorem add_fatal_field (s : Schema) (id : FieldId) : s.addFatal.field id = s.field id :=
  s.add_fatal_same_types.field id

theorem Grounded.add_fatal (grounded : s.Grounded) : s.addFatal.Grounded := by
  unfold addFatal
  split
  · exact grounded
  · have same : SameTypes s
        { s with errors := s.errors ++ [⟨"Fatal", .primitive .void, [], {}⟩] } := ⟨rfl, rfl, rfl, rfl⟩
    intro base declared
    apply same.acyclic
    cases declared with
    | definition member => exact grounded _ (.definition member)
    | error member =>
      rcases List.mem_append.mp member with old | new
      · exact grounded _ (.error old)
      · cases List.mem_singleton.mp new
        exact acyclic_of_not_deep (not_deep_primitive 0 .void)
    | argument member held => exact grounded _ (.argument member held)
    | spread member held => exact grounded _ (.spread member held)
    | returns member => exact grounded _ (.returns member)

/-- The stages that a schema has gone through when it is accepted. -/
structure Accepted (s named expanded final : Schema) : Prop where
  redeclared : s.addFatal.checkRedeclarations = .ok ()
  names : s.addFatal.nameTypes = .ok named
  references : named.checkReferences = .ok ()
  secrets : named.checkSecrets = .ok ()
  spreads : named.expandSpreads = .ok expanded
  expands : named.Expands expanded
  emptiness : expanded.checkEmptiness = .ok ()
  grounded : expanded.Grounded
  recursions : expanded.checkRecursions = .ok ()
  notes : expanded.collectTypes.checkNotes = .ok ()
  repetition : expanded.collectTypes.checkRepetition = .ok ()
  final : final = expanded.collectTypes

theorem accepted_of_analyse {final : Schema} (accepted : s.analyse = .ok final) :
    ∃ named expanded, Accepted s named expanded final := by
  obtain ⟨expanded, spread, completed⟩ := expanded_of_analyse accepted
  obtain ⟨named, declared, secrets, spreads⟩ := declared_of_expanded spread
  obtain ⟨redeclared, names, references⟩ := named_of_declared declared
  obtain ⟨emptiness, recursions, collected, notes, repetition⟩ := eq_collect_of_completed completed
  exact ⟨named, expanded, redeclared, names, references, secrets, spreads, expands_of_ok spreads,
    emptiness, grounded_of_check_emptiness emptiness, recursions, collected ▸ notes,
    collected ▸ repetition, collected⟩

namespace Accepted

variable {named expanded final : Schema}

theorem base_name (accepted : Accepted s named expanded final) (base : TypeBase) :
    final.baseName base = named.baseName base := by
  rw [accepted.final]
  exact accepted.expands.base_name base

theorem type_name (accepted : Accepted s named expanded final) (t : TypeUse) :
    final.typeName t = named.typeName t := by
  rw [typeName, typeName, accepted.base_name]

theorem known (accepted : Accepted s named expanded final) {base : TypeBase}
    (known : final.Known base) : named.Known base := by
  rw [accepted.final] at known
  obtain ⟨root, declared, way⟩ := known
  exact accepted.expands.known
    ⟨root, collect_declares declared, expanded.collect_same_types.reaches way⟩

theorem definitions (accepted : Accepted s named expanded final) :
    final.definitions = named.definitions := by
  rw [accepted.final]
  exact accepted.expands.inherits.definitions

theorem collected_names (accepted : Accepted s named expanded final) (treelike : s.Treelike) :
    (final.collected.map final.baseName).Nodup := by
  have names := well_named_of_name_types treelike.add_fatal accepted.names
  have known : ∀ base ∈ final.collected, named.Known base ∧ base.IsNested := by
    rw [accepted.final]
    intro base member
    have found := known_of_collected accepted.grounded member
    exact ⟨accepted.expands.known found.1, found.2⟩
  apply List.Nodup.map_on
  · intro base member other member' same
    rw [accepted.base_name, accepted.base_name] at same
    exact names.apart base other (known base member).1 (known other member').1
      (known base member).2 (known other member').2 same
  · rw [accepted.final]
    exact expanded.collected_nodup

theorem alike_of_name (accepted : Accepted s named expanded final) (treelike : s.Treelike)
    {d d' : Definition} (member : d ∈ final.definitions) (member' : d' ∈ final.definitions)
    (same : d.name = d'.name) :
    d.type.suffixes = d'.type.suffixes ∧
      ∀ g : Schema, g.baseName d.type.base = g.baseName d'.type.base ∧
        ∀ depth, g.shape depth d.type.base = g.shape depth d'.type.base := by
  have names := well_named_of_name_types treelike.add_fatal accepted.names
  have renamed := names_of_name_types treelike.add_fatal.grounded accepted.names
  rw [accepted.definitions] at member member'
  obtain ⟨first, written, replaced⟩ := exists_left renamed.definitions member
  obtain ⟨first', written', replaced'⟩ := exists_left renamed.definitions member'
  have alike := same_definition_of_name accepted.redeclared written written'
    (replaced.name.symm.trans (same.trans replaced'.name))
  have shapes : s.addFatal.shape 0 d.type.base = s.addFatal.shape 0 d'.type.base := by
    rw [← replaced.type.base 0, ← replaced'.type.base 0]
    exact shape_eq_of_le (Nat.zero_le _) alike.2
  refine ⟨by rw [replaced.type.suffixes, replaced'.type.suffixes, alike.1], ?_⟩
  rcases nested_or_plain shapes with ⟨nested, nested'⟩ | plain
  · have known := known_of_declares (.definition member)
    have known' := known_of_declares (.definition member')
    have called := (names.own member nested).trans (same ▸ (names.own member' nested').symm)
    rw [names.apart _ _ known known' nested nested' called]
    exact fun _ => ⟨rfl, fun _ => rfl⟩
  · exact plain

theorem type_name_of_name (accepted : Accepted s named expanded final) (treelike : s.Treelike)
    {d d' : Definition} (member : d ∈ final.definitions) (member' : d' ∈ final.definitions)
    (same : d.name = d'.name) : final.typeName d.type = final.typeName d'.type := by
  obtain ⟨suffixes, alike⟩ := accepted.alike_of_name treelike member member' same
  rw [typeName, typeName, suffixes, (alike final).1]

theorem same_types (accepted : Accepted s named expanded final) : SameTypes expanded final := by
  rw [accepted.final]
  exact expanded.collect_same_types

theorem final_grounded (accepted : Accepted s named expanded final) : final.Grounded := by
  rw [accepted.final]
  exact collect_grounded accepted.grounded

theorem expanded_known (accepted : Accepted s named expanded final) {base : TypeBase}
    (known : final.Known base) : expanded.Known base := by
  obtain ⟨root, declared, way⟩ := known
  rw [accepted.final] at declared
  exact ⟨root, collect_declares declared, accepted.same_types.reaches way⟩

theorem collected_known (accepted : Accepted s named expanded final) {base : TypeBase}
    (member : base ∈ final.collected) : final.Known base ∧ base.IsNested := by
  rw [accepted.final] at member
  obtain ⟨⟨root, declared, way⟩, nested⟩ := known_of_collected accepted.grounded member
  rw [accepted.final]
  exact ⟨⟨root, declares_collected declared, expanded.collect_same_types.symm.reaches way⟩, nested⟩

theorem collects (accepted : Accepted s named expanded final) {base : TypeBase}
    (known : final.Known base) (nested : base.IsNested) : base ∈ final.collected := by
  have found := mem_collected accepted.grounded (accepted.expanded_known known) nested
  rwa [accepted.final]

theorem expanded_bound (accepted : Accepted s named expanded final) (grounded : s.Grounded) :
    expanded.Bound := by
  have grounded := grounded.add_fatal
  have renamed := names_of_name_types grounded accepted.names
  exact accepted.expands.bound
    (bound_of_check_references (renamed.grounded grounded) accepted.references)

theorem bound (accepted : Accepted s named expanded final) (grounded : s.Grounded) :
    final.Bound := by
  intro name location known
  rw [accepted.same_types.definition?]
  exact accepted.expanded_bound grounded name location (accepted.expanded_known known)

theorem distinct_values (accepted : Accepted s named expanded final) {e : EnumId}
    (known : final.Known (.enum e)) : ((final.enum e).values.map (·.text)).Nodup := by
  have once : final.checkRepetition = .ok () := by
    rw [accepted.final]
    exact accepted.repetition
  exact check_repeated_ok.mp once e (met_of_known accepted.final_grounded known trivial .enum)

theorem field (accepted : Accepted s named expanded final) (id : FieldId) :
    final.field id = named.field id := by
  rw [accepted.final]
  exact accepted.expands.inherits.field id

theorem distinct_fields (accepted : Accepted s named expanded final) (treelike : s.Treelike)
    (unexpanded : s.Unexpanded) :
    (∀ t, final.DistinctNames (final.struct t).fields) ∧
      ∀ o ∈ final.operations, final.DistinctNames o.args := by
  have renamed := names_of_name_types treelike.add_fatal.grounded accepted.names
  have same : ∀ ids, final.DistinctNames ids ↔ named.DistinctNames ids := by
    intro ids
    simp only [DistinctNames, accepted.field]
  have written := unexpanded.add_fatal
  constructor
  · intro t
    rw [same, accepted.final]
    apply accepted.expands.distinct
    intro u
    rw [renamed.revises.fields]
    exact written.structs u
  · intro o member
    rw [same]
    rw [accepted.final] at member
    obtain ⟨before, declared, expanded⟩ := exists_left accepted.expands.operations member
    obtain ⟨first, listed, replaced⟩ := exists_left renamed.operations declared
    apply expanded.distinct
    rw [replaced.args]
    exact written.operations first listed

end Accepted

end ApiSchema.Schema
