import ApiSchema.Proofs.Analysis.Requirement
import ApiSchema.Proofs.Document.Rewriting
import ApiSchema.Proofs.Rest.Binding

/-! A document that is written is read again: what it is loaded as passes the same checks, but for the
search for endless types, which may have missed one before. -/

namespace ApiSchema

theorem Annotation.IsShort.stored {a : Annotation} (short : a.IsShort)
    (other : ∀ name text, a ≠ .argument name text) : (Schema.storedNote a).IsStored := by
  cases a with
  | argument name text => exact absurd rfl (other name text)
  | statusCode => exact short
  | _ => trivial

namespace Schema

variable {s g final : Schema} {d : Document} {name : String}

section Recursions

theorem Chains.recurs {n : Nat} {other : String} (chains : s.Chains name n other) :
    ∀ location, s.Recurs name (.reference other location) := by
  induction chains with
  | here => exact fun _ => .here
  | behind _ onward _ ih =>
    intro location
    obtain ⟨a, place, defined, written⟩ := link_onward onward
    exact .behind defined (by rw [written]; rfl) (by rw [written]; exact ih place)

theorem Chains.refers {n : Nat} {other : String} (chains : s.Chains name n other) :
    ∀ location, s.Known (.reference other location) → ∃ place, s.Known (.reference name place) := by
  induction chains with
  | here => exact fun location known => ⟨location, known⟩
  | behind _ onward _ ih =>
    intro location _
    obtain ⟨a, place, defined, written⟩ := link_onward onward
    have declared := Declares.definition (name_of_definition defined).1
    rw [written] at declared
    exact ih place (known_of_declares declared)

theorem Needs.refers (filled : ∀ e, s.Known (.enum e) → (s.enum e).values ≠ []) {t : TypeUse}
    (needs : s.Needs name t) (known : s.Known t.base) :
    s.Recurs name t.base ∧ ∃ place, s.Known (.reference name place) := by
  induction needs with
  | reference chains => exact ⟨chains.recurs _, chains.refers _ known⟩
  | field held _ ih =>
    obtain ⟨recurs, refers⟩ := ih (known.reaches (.single (.field (.inr held))))
    exact ⟨.field held recurs, refers⟩
  | @values e data each _ ih =>
    obtain ⟨v, held⟩ := List.exists_mem_of_ne_nil _ (filled e known)
    obtain ⟨recurs, refers⟩ := ih v held (known.reaches (.single (.value held (each v held))))
    exact ⟨.value held (each v held) recurs, refers⟩

theorem acyclic_of_known (grounded : s.Grounded) {base : TypeBase} (known : s.Known base) :
    s.Acyclic base := by
  refine Known.induction (motive := s.Acyclic) (fun _ declared => grounded _ declared) ?_ known
  intro base next acyclic leads
  have inside : s.Nests base next → s.Acyclic next := fun nests part contains =>
    acyclic part (.head nests contains)
  cases leads with
  | reference defined => exact grounded _ (.definition (name_of_definition defined).1)
  | field held => exact inside (.field held)
  | value member data => exact inside (.value member data)
  | spread =>
    intro part contains cycle
    rcases Relation.ReflTransGen.cases_head contains with rfl | ⟨_, nests, _⟩
    · obtain ⟨_, nests, _⟩ := Relation.TransGen.head'_iff.mp cycle
      cases nests
    · cases nests

namespace Projects

variable (projects : final.Projects d) (retells : final.Retells g)

include projects

theorem told_listed {base : TypeBase} (member : base ∈ final.collected) :
    final.told base = .reference (final.baseName base) {} := by
  refine projects.told_other (projects.compiles.collected_known member) ?_
  rintro kind rfl
  exact collected_nested member

theorem reference_of_told {base : TypeBase} (known : final.Known base) (plain : ¬ base.IsNested)
    {other : String} {location : Location} (told : final.told base = .reference other location) :
    ∃ place, base = .reference other place := by
  cases base with
  | primitive kind =>
    rw [projects.told_primitive known |>.mpr rfl] at told
    cases told
  | reference name place =>
    rw [projects.told_other known fun _ same => by cases same] at told
    cases told
    exact ⟨place, rfl⟩
  | struct | enum => exact absurd trivial plain

theorem definition_of_root {root : TypeBase} (rooted : root ∈ final.collected) {place : Location}
    (known : final.Known (.reference (final.baseName root) place)) :
    ∃ a ∈ final.definitions, a.name = final.baseName root ∧ a.type = .ofBase root := by
  obtain ⟨tree, first, expanded, stages⟩ := projects.stages
  obtain ⟨a, defined⟩ := Option.isSome_iff_exists.mp
    (stages.bound (treelike_of_tree tree).grounded _ place known)
  obtain ⟨member, named⟩ := name_of_definition defined
  refine ⟨a, member, named, ?_⟩
  cases nested : a.type.isNested with
  | false =>
    exact absurd ⟨a, List.mem_filter.mpr ⟨member, by rw [nested]; rfl⟩, named⟩
      (projects.unclashed root rooted)
  | true =>
    obtain ⟨bare, inside⟩ := is_nested_iff.mp nested
    obtain ⟨listed, own⟩ := projects.definition_name member inside
    rw [← List.inj_on_of_nodup_map projects.collected_names listed rooted (own.trans named),
      TypeUse.ofBase, ← bare]

theorem judged {a : Definition} (member : a ∈ final.definitions) : final.judge a = .ok () := by
  obtain ⟨tree, named, expanded, stages⟩ := projects.stages
  exact forM_ok_iff.mp (stages.same_types.check_recursions.trans stages.recursions) a member

theorem not_recurs_alias {a : Definition} (member : a ∈ final.aliases) :
    ¬ final.Recurs a.name a.type.base := by
  intro recurs
  obtain ⟨tree, named, expanded, stages⟩ := projects.stages
  have declared := List.mem_of_mem_filter member
  have passed := projects.judged declared
  rw [judge, if_neg (not_not.mpr ((is_recursive_iff stages.final_grounded declared).mpr recurs)),
    if_pos (by simpa using (List.mem_filter.mp member).2)] at passed
  cases passed

include retells

theorem recurs_of_told {base' : TypeBase} (recurs : g.Recurs name base') :
    ∀ {base}, base' = final.told base → final.Known base → ¬ base.IsNested → final.Recurs name base := by
  induction recurs with
  | here =>
    intro base same known plain
    obtain ⟨place, rfl⟩ := projects.reference_of_told known plain same.symm
    exact .here
  | behind defined bare _ ih =>
    intro base same known plain
    obtain ⟨place, rfl⟩ := projects.reference_of_told known plain same.symm
    rcases projects.definition_cases retells defined with ⟨first, listed, _, rfl⟩ | ⟨b, member, own, rfl⟩
    · rw [is_nested_iff.mpr ⟨rfl, seat_nested listed⟩] at bare
      cases bare
    · have declared := known_of_declares (.definition (List.mem_of_mem_filter member))
      exact .behind own (by simpa using (List.mem_filter.mp member).2)
        (ih rfl declared (projects.alias_plain member))
  | field | value =>
    intro base same
    exact absurd (same ▸ trivial : (final.told base).IsNested) (not_nested_told _)

theorem chains_of_loaded {n : Nat} {other : String} (chains : g.Chains name n other) :
    final.Chains name n other := by
  induction chains with
  | here => exact .here
  | behind plain onward _ ih =>
    obtain ⟨a, place, defined, written⟩ := link_onward onward
    refine .behind plain ?_ ih
    rcases projects.definition_cases retells defined with ⟨first, listed, _, rfl⟩ | ⟨b, member, own, rfl⟩
    · exact absurd written (seat_not_reference listed)
    · obtain ⟨_, ⟨suffixes, base⟩, _, _⟩ := b
      simp only [retold, TypeUse.mk.injEq] at written
      obtain ⟨rfl, told⟩ := written
      have declared := known_of_declares (.definition (List.mem_of_mem_filter member))
      obtain ⟨first, rfl⟩ := projects.reference_of_told declared (projects.alias_plain member) told
      exact link_of_alias own rfl

/-- No chain of names goes through a struct or an enum. -/
theorem chains_of_seat {base : TypeBase} (member : base ∈ final.collected) {n : Nat}
    (chains : g.Chains name n (final.baseName base)) : final.baseName base = name := by
  cases chains with
  | here => rfl
  | behind _ onward =>
    obtain ⟨a, place, defined, written⟩ := link_onward onward
    rw [projects.seat_defined retells member] at defined
    cases defined
    exact absurd written (seat_not_reference member)

section Root

variable {root : TypeBase} (rooted : root ∈ final.collected) (acyclic : final.Acyclic root)

include rooted acyclic

theorem needs_of_struct {t : StructId} (member : t ∈ final.structOrder)
    (inside : final.Contains root (.struct t))
    (needs : g.Needs (final.baseName root) (.ofBase (.struct (final.structOrder.idxOf t)))) :
    final.Needs (final.baseName root) (.ofBase (.struct t)) := by
  obtain ⟨id, held, needs⟩ := needs_struct_iff.mp needs
  obtain ⟨first, written, same⟩ := retells.exists_field member held
  rw [same] at needs
  refine needs_struct_iff.mpr ⟨first, written, ?_⟩
  have known := (projects.known_struct member).reaches (.single (.field (.inr written)))
  have nests : final.Nests (.struct t) (final.field first).type.base := .field (.inr written)
  simp only [retoldField, retold] at needs
  generalize (final.field first).type = type at needs known nests
  obtain ⟨suffixes, base⟩ := type
  cases base with
  | primitive kind =>
    rw [projects.told_primitive known |>.mpr rfl] at needs
    cases needs
  | reference other place =>
    rw [projects.told_other known fun _ same => by cases same] at needs
    cases needs with
    | reference chains => exact .reference (projects.chains_of_loaded retells chains)
  | struct | enum =>
    have listed := projects.listed_of_known known trivial
    rw [projects.told_listed listed] at needs
    cases needs with
    | reference chains =>
      -- what is written here has the name of the root only if it is the root
      have same := List.inj_on_of_nodup_map projects.collected_names listed rooted
        (projects.chains_of_seat retells listed chains)
      exact absurd (.tail' inside (same ▸ nests)) (acyclic root .refl)

theorem needs_of_seat {base : TypeBase} (member : base ∈ final.collected)
    (inside : final.Contains root base) (needs : g.Needs (final.baseName root) (.ofBase (final.seat base))) :
    final.Needs (final.baseName root) (.ofBase base) := by
  rcases collected_cases member with ⟨t, own, rfl⟩ | ⟨e, own, rfl⟩
  · exact projects.needs_of_struct retells rooted acyclic own inside needs
  · refine needs_enum_iff.mpr fun v held => ?_
    have values := needs_enum_iff.mp needs
    rw [retells.values e own] at values
    obtain ⟨t, data, further⟩ := values _ (List.mem_map_of_mem held)
    obtain ⟨t, written, rfl⟩ := Option.map_eq_some_iff.mp data
    exact ⟨t, written, projects.needs_of_struct retells rooted acyclic
      (projects.data_listed own held written) (inside.tail (.value held written)) further⟩

end Root

/-- A struct or an enum that is found to need itself has needed itself before; the search has missed
it because the same names are gone through at several values of an enum. -/
theorem missed_of_seat {root : TypeBase} (rooted : root ∈ final.collected)
    (needs : g.Needs (final.baseName root) (.ofBase (final.seat root))) :
    ∃ a ∈ final.definitions, a.name = final.baseName root ∧ a.type.isNested = true ∧
      final.Needs a.name a.type ∧ ¬ final.Separate a.name a.type := by
  obtain ⟨tree, first, expanded, stages⟩ := projects.stages
  have known := projects.compiles.collected_known rooted
  have needs := projects.needs_of_seat retells rooted
    (acyclic_of_known stages.final_grounded known) rooted .refl needs
  obtain ⟨recurs, place, refers⟩ := needs.refers (fun e known => stages.has_values known) known
  obtain ⟨a, member, named, typed⟩ := projects.definition_of_root rooted refers
  have nested : a.type.isNested = true := by
    rw [typed]
    exact is_nested_iff.mpr ⟨rfl, collected_nested rooted⟩
  have needed : final.Needs a.name a.type := by
    rw [named, typed]
    exact needs
  refine ⟨a, member, named, nested, needed, fun separate => ?_⟩
  have recursive : final.isRecursive a = true := (is_recursive_iff stages.final_grounded member).mpr (by
    rw [named, typed]
    exact recurs)
  have endless := ((is_endless_iff stages.final_grounded member).2 separate).mpr needed
  have passed := projects.judged member
  rw [judge, if_neg (not_not.mpr recursive), if_neg (not_not.mpr nested), if_pos endless] at passed
  cases passed

theorem recursions_again (grounded : g.Grounded) : g.checkRecursions = .ok () ∨
    ∃ a ∈ final.definitions, a.type.isNested = true ∧
      g.checkRecursions = .error (.semantic (.endlessType a.name {})) ∧
        final.Needs a.name a.type ∧ ¬ final.Separate a.name a.type := by
  cases outcome : g.checkRecursions with
  | ok => exact .inl rfl
  | error e =>
    obtain ⟨_, a, _, split, _, failed⟩ := forM_error_iff.mp ((check_recursions_eq g).symm.trans outcome)
    have member : a ∈ g.definitions := split ▸ List.mem_append_right _ (List.mem_cons_self ..)
    have recursive : g.isRecursive a = true := by
      by_contra no
      rw [judge, if_pos no] at failed
      cases failed
    rw [judge, if_neg (not_not.mpr recursive)] at failed
    rcases projects.definition_cases retells (definition_of_member
      (projects.definitions_distinct retells) member) with ⟨root, rooted, _, same⟩ | ⟨b, listed, own, same⟩
    · have nested : a.type.isNested = true := by
        rw [same]
        exact is_nested_iff.mpr ⟨rfl, seat_nested rooted⟩
      rw [if_neg (not_not.mpr nested)] at failed
      split at failed
      · next endless =>
        have needs := (is_endless_iff grounded member).1 endless
        rw [same] at failed needs
        obtain ⟨b, defined, named, rest⟩ := projects.missed_of_seat retells rooted needs
        refine .inr ⟨b, defined, rest.1, ?_, rest.2⟩
        rw [← failed, named]
        rfl
      · cases failed
    · have recurs := (is_recursive_iff grounded member).mp recursive
      rw [same, ← (name_of_definition own).2] at recurs
      exact absurd (projects.recurs_of_told retells recurs rfl
        (known_of_declares (.definition (List.mem_of_mem_filter listed))) (projects.alias_plain listed))
        (projects.not_recurs_alias listed)

end Projects

end Recursions

section Notes

theorem required_retold (t : TypeUse) : required (s.retold t) = s.retold (required t) := by
  obtain ⟨suffixes, base⟩ := t
  cases suffixes with
  | nil => rfl
  | cons suffix rest => cases suffix <;> rfl

theorem stored_rest (m : RestMapping) : ∃ m', storedNote (.rest m) = .rest m' ∧
    m'.method = m.method ∧ m'.pathVariables = m.pathVariables ∧ m'.bodyVariable = m.bodyVariable ∧
      m'.variables.Perm m.variables := by
  refine ⟨_, rfl, rfl, rfl, rfl, ?_⟩
  exact ((List.Perm.refl _).append (List.mergeSort_perm ..)).append ((List.mergeSort_perm ..).map _)

theorem known_of_visits_field {id : FieldId} (visits : s.Visits (.field id)) :
    (∃ o ∈ s.operations, .field id ∈ o.members ∨ id ∈ o.args) ∨ ∃ t, s.Known (.struct t) ∧ s.Holds t id := by
  cases visits with
  | argument member held => exact .inl ⟨_, member, held⟩
  | inside declared meets =>
    obtain ⟨part, contains, shown⟩ := meets
    cases shown with
    | field held => exact .inr ⟨_, (known_of_declares declared).reaches contains.reaches, held⟩

theorem known_of_visits_value {v : EnumValue} (visits : s.Visits (.value v)) :
    ∃ e, s.Known (.enum e) ∧ v ∈ (s.enum e).values := by
  cases visits with
  | inside declared meets =>
    obtain ⟨part, contains, shown⟩ := meets
    cases shown with
    | value held => exact ⟨_, (known_of_declares declared).reaches contains.reaches, held⟩

namespace Projects

variable (projects : final.Projects d) (retells : final.Retells g)

include projects

theorem checked {v : Visit} (visits : final.Visits v) : final.checkVisitNotes v = .ok () := by
  obtain ⟨tree, named, expanded, stages⟩ := projects.stages
  have passed : final.checkNotes = .ok () := by
    rw [stages.final]
    exact stages.notes
  exact forM_ok_iff.mp passed _ ((mem_walk stages.final_grounded).mpr visits)

theorem resolved : final.Resolved := by
  obtain ⟨tree, named, expanded, stages⟩ := projects.stages
  exact resolved_of_bound (stages.bound (treelike_of_tree tree).grounded)
    (stages.same_types.check_recursions.trans stages.recursions)

include retells

theorem stands_told {t u : TypeUse} (stands : final.Stands t u)
    (ends : ∀ name location, u ≠ ⟨[], .reference name location⟩) (known : final.Known t.base) :
    g.Stands (final.retold t) (final.reseated u) := by
  induction stands with
  | @self t =>
    cases nested : t.isNested with
    | false =>
      rw [reseated, nested]
      exact .self
    | true =>
      obtain ⟨bare, inside⟩ := is_nested_iff.mp nested
      obtain ⟨suffixes, base⟩ := t
      cases bare
      have listed := projects.listed_of_known known inside
      rw [reseated, nested, retold, projects.told_listed listed]
      exact .reference (projects.seat_defined retells listed) .self
  | @reference name location a u defined further ih =>
    obtain ⟨a', found, same⟩ := projects.definition_told retells defined
    rw [retold, projects.told_other known fun _ same => by cases same]
    refine .reference found ?_
    rw [same]
    cases nested : a.type.isNested with
    | true =>
      have inside := (is_nested_iff.mp nested).2
      obtain ⟨_, ⟨suffixes, base⟩, _, _⟩ := a
      cases further with
      | self => exact .self
      | reference => exact absurd inside id
    | false =>
      rw [reseated, nested]
      exact ih ends (known_of_declares (.definition (name_of_definition defined).1))

theorem encodable_told {t : TypeUse} (encodable : final.Encodable t) (known : final.Known t.base) :
    g.Encodable (final.retold t) := by
  rcases encodable with ⟨kind, listed, stands⟩ | ⟨e, stands⟩
  · have told := projects.stands_told retells stands (primitive_ends kind) known
    have same : final.reseated (.primitive kind) = .primitive kind :=
      congrArg TypeUse.ofBase (TypeText.base_of_primitive kind)
    exact .inl ⟨kind, listed, same ▸ told⟩
  · exact .inr ⟨_, projects.stands_told retells stands (fun _ _ same => by cases same) known⟩

theorem admits_told {o o' : Operation} (member : o ∈ final.operations)
    (told : final.RetellsOperation g o o') {m m' : RestMapping}
    (method : m'.method = m.method) (path : m'.pathVariables = m.pathVariables)
    (body : m'.bodyVariable = m.bodyVariable) (perm : m'.variables.Perm m.variables)
    (admits : final.Admits (o.args.map final.field) o.returns m) :
    g.Admits (o'.args.map g.field) o'.returns m' := by
  rw [told.args, told.returns]
  constructor
  · exact perm.nodup_iff.mpr admits.once
  · intro name listed
    obtain ⟨arg, found, required, encodable⟩ := admits.suited name (perm.mem_iff.mp listed)
    rw [List.find?_map] at found
    obtain ⟨id, own, rfl⟩ := Option.map_eq_some_iff.mp found
    have known := known_of_declares (.argument member (.inr (List.mem_of_find?_eq_some own)))
    refine ⟨final.retoldField id, ?_, path ▸ required, ?_⟩
    · rw [List.find?_map]
      exact congrArg (Option.map _) own
    · change g.Encodable (Schema.required (final.retold (final.field id).type))
      rw [required_retold]
      exact projects.encodable_told retells encodable (by rwa [required_base])
  · intro name bound
    obtain ⟨arg, listed, rfl⟩ := admits.body name (body ▸ bound)
    obtain ⟨id, held, rfl⟩ := List.mem_map.mp listed
    exact ⟨_, List.mem_map_of_mem held, rfl⟩
  · intro arg listed
    obtain ⟨id, held, rfl⟩ := List.mem_map.mp listed
    rw [body, perm.mem_iff]
    exact admits.bound (final.field id) (List.mem_map_of_mem held)
  · intro _ arg listed secret
    obtain ⟨id, _, rfl⟩ := List.mem_map.mp listed
    cases secret
  · intro get void
    have same := projects.retold_void (.returns member)
    rw [is_primitive_iff.mpr void] at same
    exact admits.answers (method ▸ get) (is_primitive_iff.mp same.symm)

theorem operation_note_told {o o' : Operation} (member : o ∈ final.operations) (member' : o' ∈ g.operations)
    (told : final.RetellsOperation g o o') (resolved : g.Resolved) {n : Note} (noted : n ∈ o.notes) :
    g.checkOperationNote o' ⟨storedNote n.content, {}⟩ = .ok () := by
  have passed := forM_ok_iff.mp (projects.checked (.operation member)) n noted
  obtain ⟨content, location⟩ := n
  cases content with
  | rest m =>
    obtain ⟨m', stored, method, path, body, perm⟩ := stored_rest m
    rw [stored]
    exact (check_rest_iff resolved member').mpr (projects.admits_told retells member told method path body
      perm ((check_rest_iff projects.resolved member).mp passed))
  | throws name =>
    have known : final.errors.any (·.name == name) = true := by
      by_contra unknown
      simp only [checkOperationNote, if_neg unknown] at passed
      cases passed
    have again : g.errors.any (·.name == name) = true := by
      rw [retells.errors, List.any_map]
      exact known
    simp only [checkOperationNote, storedNote, if_pos again]
  | statusCode | argument => cases passed
  | _ => rfl

theorem notes_told (grounded : g.Grounded) (resolved : g.Resolved) : g.checkNotes = .ok () := by
  refine forM_ok_iff.mpr fun v visited => ?_
  have visits := (mem_walk grounded).mp visited
  have descriptions : ∀ id, (final.retoldField id).notes.forM checkDescription = .ok () := fun id =>
    forM_ok_iff.mpr fun n noted => by
      obtain ⟨text, _, rfl⟩ := List.mem_map.mp noted
      rfl
  cases v with
  | error e =>
    cases visits with
    | error member =>
      rw [retells.errors] at member
      obtain ⟨first, listed, rfl⟩ := List.mem_map.mp member
      refine forM_ok_iff.mpr fun n noted => ?_
      obtain ⟨n, written, rfl⟩ := List.mem_map.mp noted
      have passed := forM_ok_iff.mp (projects.checked (.error listed)) n written
      obtain ⟨content, location⟩ := n
      cases content with
      | statusCode code =>
        by_cases inside : 100 ≤ code ∧ code ≤ 599
        · simp only [checkErrorNote, storedNote, if_pos inside]
        · simp only [checkErrorNote, if_neg inside] at passed
          cases passed
      | description => rfl
      | _ => cases passed
    | inside declared meets =>
      obtain ⟨_, _, shown⟩ := meets
      cases shown
  | definition a =>
    cases visits with
    | definition member =>
      rcases retells.exists_definition member with ⟨_, _, rfl⟩ | ⟨_, _, rfl⟩ <;> rfl
    | inside declared meets =>
      obtain ⟨_, _, shown⟩ := meets
      cases shown
  | operation o =>
    cases visits with
    | operation member =>
      obtain ⟨first, listed, told⟩ := retells.exists_operation member
      refine forM_ok_iff.mpr fun n noted => ?_
      rw [told.notes] at noted
      obtain ⟨n, written, rfl⟩ := List.mem_map.mp noted
      exact projects.operation_note_told retells listed member told resolved written
    | inside declared meets =>
      obtain ⟨_, _, shown⟩ := meets
      cases shown
  | field id =>
    change (g.field id).notes.forM checkDescription = .ok ()
    rcases known_of_visits_field visits with ⟨o, member, held⟩ | ⟨t, known, held⟩
    · obtain ⟨_, _, told⟩ := retells.exists_operation member
      rw [told.members] at held
      obtain ⟨_, _, first, _, same⟩ := retells.exists_arg member (held.resolve_left List.not_mem_nil)
      rw [same]
      exact descriptions first
    · obtain ⟨first, listed, rfl⟩ := projects.seated_struct retells known
      obtain ⟨_, _, same⟩ := retells.exists_field listed
        (held.resolve_left fun written => retells.members_empty listed written)
      rw [same]
      exact descriptions _
  | value v =>
    obtain ⟨e, known, held⟩ := known_of_visits_value visits
    obtain ⟨first, listed, rfl⟩ := projects.seated_enum retells known
    obtain ⟨_, _, rfl⟩ := retells.exists_value listed held
    rfl
  | _ => rfl

end Projects

end Notes

section Storing

theorem field_notes_stored (place : String) (ids : List FieldId) :
    ∀ placed ∈ s.fieldNotes place ids, placed.2.IsStored := by
  intro placed member
  obtain ⟨id, _, inside⟩ := List.mem_flatMap.mp member
  obtain ⟨text, _, rfl⟩ := List.mem_map.mp inside
  trivial

namespace Projects

variable (projects : final.Projects d)

include projects

theorem stored_placed : ∀ placed ∈ final.placedNotes, placed.2.IsStored := by
  obtain ⟨files, file, source, tree, parsed, accepted⟩ := projects.compiles.accepted
  obtain ⟨named, expanded, stages⟩ := accepted_of_analyse accepted
  have short := stages.short_notes (treelike_of_tree tree).grounded
    (short_of_tree (SchemaTree.short_of_parse parsed))
  intro placed member
  rcases List.mem_append.mp member with before | errors
  · rcases List.mem_append.mp before with structs | operations
    · obtain ⟨t, _, inside⟩ := List.mem_flatMap.mp structs
      exact field_notes_stored _ _ placed inside
    · obtain ⟨o, listed, inside⟩ := List.mem_flatMap.mp operations
      rcases List.mem_append.mp inside with inside | inside
      · exact field_notes_stored _ _ placed inside
      · obtain ⟨n, noted, rfl⟩ := List.mem_map.mp inside
        refine (short.1 o listed n noted).stored fun name text same => ?_
        have passed := forM_ok_iff.mp (projects.checked (.operation listed)) n noted
        obtain ⟨content, location⟩ := n
        cases same
        cases passed
  · obtain ⟨e, listed, inside⟩ := List.mem_flatMap.mp errors
    obtain ⟨n, noted, rfl⟩ := List.mem_map.mp inside
    refine (short.2 e listed n noted).stored fun name text same => ?_
    have passed := forM_ok_iff.mp (projects.checked (.error listed)) n noted
    obtain ⟨content, location⟩ := n
    cases same
    cases passed

theorem types_distinct : d.types.keys.Nodup := by
  rw [projects.types_eq, table_of_texts, Table.keys, List.map_append, List.map_map]
  have collected := projects.collected_names
  rw [← collected_entries_keys] at collected
  refine List.nodup_append.mpr ⟨collected, Table.ofEntries_distinct _, ?_⟩
  intro name taken other written same
  obtain ⟨entry, own, rfl⟩ := List.mem_map.mp written
  obtain ⟨a, member, rfl⟩ := List.mem_map.mp (Table.mem_of_mem_ofEntries own)
  rw [same] at taken
  change a.name ∈ final.collectedEntries.keys at taken
  rw [collected_entries_keys] at taken
  obtain ⟨base, listed, named⟩ := List.mem_map.mp taken
  exact projects.unclashed base listed ⟨a, member, named.symm⟩

theorem storable : d.Storable := by
  have notes := notes_of_document projects.compiles.document
  refine ⟨projects.types_distinct, ?_, ?_, ?_, ?_, ?_⟩
  · intro name fields member
    rw [projects.types_eq, table_of_texts] at member
    rcases List.mem_append.mp member with collected | texts
    · rcases List.mem_append.mp collected with structs | enums
      · obtain ⟨t, _, same⟩ := List.mem_map.mp structs
        cases same
        exact Table.ofEntries_distinct _
      · obtain ⟨e, _, same⟩ := List.mem_map.mp enums
        cases same
    · obtain ⟨entry, _, same⟩ := List.mem_map.mp texts
      cases same
  · rw [projects.operations_eq, Table.keys, List.map_map]
    exact projects.operations
  · intro entry member
    rw [projects.operations_eq] at member
    obtain ⟨o, _, rfl⟩ := List.mem_map.mp member
    exact Table.ofEntries_distinct _
  · rw [notes]
    exact Table.foldl_append_distinct _
  · rw [notes]
    exact Table.forall_foldl_append projects.stored_placed

/-- What a written document is analysed as: it is written as it was, or a type is found to be endless
that has been missed before. -/
theorem loaded_again : (∃ again, (ofDocument d).analyse = .ok again ∧ again.document = .ok d) ∨
    ∃ a ∈ final.definitions, a.type.isNested = true ∧
      (ofDocument d).analyse = .error (.semantic (.endlessType a.name {})) ∧
        final.Needs a.name a.type ∧ ¬ final.Separate a.name a.type := by
  have retells := projects.retells
  obtain ⟨g, named, recalls, plain⟩ := projects.named retells (plain_fields_of_document d)
  have told := recalls.toRetells
  have grounded := plain.grounded
  have references := (check_references_ok grounded).mpr (projects.bound told)
  have declared : (ofDocument d).declared = .ok g := by
    simp only [Schema.declared, projects.fatal_again retells, projects.redeclared retells, named,
      references, bind, Except.bind]
    rfl
  have expanded : (ofDocument d).expanded = .ok g := by
    simp only [Schema.expanded, declared, projects.secrets told, bind, Except.bind]
    exact expand_spreads_again (projects.spread told)
  rw [analyse_eq, expanded]
  rcases projects.recursions_again told grounded with recursions | ⟨a, member, nested, failed, needs, apart⟩
  · have collected : final.Retells g.collectTypes := ⟨told.structCount, told.enumCount, told.members,
      told.fields, told.values, told.definitions, told.operations.imp fun _ _ same =>
        ⟨same.name, same.members, same.args, same.returns, same.notes⟩, told.errors⟩
    have grounded' : g.collectTypes.Grounded := collect_grounded grounded
    have notes := projects.notes_told collected grounded'
      (collect_resolved (resolved_of_bound (projects.bound told) recursions))
    refine .inl ⟨g.collectTypes, ?_, projects.document_again recalls grounded⟩
    change g.completed = .ok g.collectTypes
    simp only [Schema.completed, projects.emptiness told grounded, recursions, notes,
      projects.repetition collected grounded', bind, Except.bind]
    rfl
  · refine .inr ⟨a, member, nested, ?_, needs, apart⟩
    change g.completed = _
    simp only [Schema.completed, projects.emptiness told grounded, failed, bind, Except.bind]

end Projects

end Storing

end Schema

namespace Artifact

open Schema

variable {final : Schema}

/-- The text of an accepted source is read, and what is read is written as the same text, if all that is
declared has an entry of its own. Only a struct or an enum that needs itself can be in the way, where
the source has been accepted because the search for such types has missed it. -/
theorem text_again {files : FileTree} {file source : String} {tree : SchemaTree}
    (parsed : SchemaTree.parse files file source = .ok tree) (accepted : (ofTree tree).analyse = .ok final)
    (unclashed : final.Unclashed) (operations : (final.operations.map (·.name)).Nodup)
    (errors : (final.errors.map (·.name)).Nodup) :
    ∃ text, write final = .ok text ∧
      ((∃ again, read text = .ok again ∧ write again = .ok text) ∨
        ∃ a ∈ final.definitions, a.type.isNested = true ∧
          read text = .error (.invalid (.semantic (.endlessType a.name {}))) ∧
            final.Needs a.name a.type ∧ ¬ final.Separate a.name a.type) := by
  obtain ⟨named, expanded, stages⟩ := accepted_of_analyse accepted
  obtain ⟨d, document⟩ := document_iff.mpr (stages.collected_names (treelike_of_tree tree))
  have projects : final.Projects d :=
    ⟨⟨⟨files, file, source, tree, parsed, accepted⟩, document⟩, unclashed, operations, errors⟩
  obtain ⟨text, written, found⟩ := projects.storable.of_text
  have loaded : read text = (ofDocument d).analyse.mapError .invalid := by
    rw [read, found]
    rfl
  have write_of : ∀ s : Schema, s.document = .ok d → write s = .ok text := by
    intro s same
    rw [write, same]
    dsimp only
    rw [written]
  refine ⟨text, write_of final document, ?_⟩
  rw [loaded]
  rcases projects.loaded_again with ⟨again, accepted, same⟩ | ⟨a, member, nested, failed, rest⟩
  · exact .inl ⟨again, by rw [accepted]; rfl, write_of again same⟩
  · exact .inr ⟨a, member, nested, by rw [failed]; rfl, rest⟩

theorem tree_of_some {source : String} (found : analysed? source = some final) :
    ∃ tree, SchemaTree.parse ⟨[], []⟩ "-" source = .ok tree ∧ (ofTree tree).analyse = .ok final := by
  obtain ⟨tree, parsed, accepted⟩ := Option.bind_eq_some_iff.mp found
  exact ⟨tree, ok_of_to_option parsed, ok_of_to_option accepted⟩

def parcels : String :=
  "type Parcel \x7b to: \x7b city: string zip: Zip? \x7d kind: Kind \x7d\n" ++
    "type Kind enum \x7b gift \x7b wrap: string \x7d \x7d\n" ++
    "type Zip string\n" ++
    "type Sent \x7b ...Parcel at: datetime \x7d\n" ++
    "error Lost: Parcel[]\n" ++
    "@rest GET /sent/\x7bid\x7d?\x7bzip\x7d [header By: \x7bby\x7d]\n" ++
    "fn sent(id: uuid, zip: Zip?, by: string?): Sent"

theorem parcels_text_again : ∃ tree final, SchemaTree.parse ⟨[], []⟩ "-" parcels = .ok tree ∧
    (ofTree tree).analyse = .ok final ∧ final.Unclashed ∧ (final.operations.map (·.name)).Nodup ∧
      (final.errors.map (·.name)).Nodup ∧ ∃ text, write final = .ok text ∧
        ∃ again, read text = .ok again ∧ write again = .ok text := by
  have checked : (analysed? parcels).map (fun s => decide (s.Unclashed ∧
      (s.operations.map (·.name)).Nodup ∧ (s.errors.map (·.name)).Nodup ∧
        ∀ e ∈ s.enums.toList, e.values.length ≤ 1)) = some true := by
    simp only [analysed?, SchemaTree.parse_by_chars]
    decide +kernel
  obtain ⟨final, found, checked⟩ := Option.map_eq_some_iff.mp checked
  obtain ⟨tree, parsed, accepted⟩ := tree_of_some found
  obtain ⟨unclashed, operations, errors, few⟩ := of_decide_eq_true checked
  refine ⟨tree, final, parsed, accepted, unclashed, operations, errors, ?_⟩
  obtain ⟨text, written, again | ⟨a, _, _, _, _, apart⟩⟩ :=
    text_again parsed accepted unclashed operations errors
  · exact ⟨text, written, again⟩
  · exact absurd (separate_of_few few _) apart

end Artifact

end ApiSchema
