import ApiSchema.Proofs.Analysis.Form
import ApiSchema.Proofs.Analysis.Likeness

/-! Schemas of like declarations pass the same checks: what is met in one of them is met in the other,
and no check looks at the order of the definitions. -/

namespace ApiSchema

namespace AliasSearch

variable {α β : Type} {related : α → β → Prop} {as : List α} {bs : List β}
  {test : α → AliasSearch Bool} {test' : β → AliasSearch Bool}

theorem any_of_congr (all : List.Forall₂ related as bs) (same : ∀ a b, related a b → test a = test' b) :
    anyOf test as = anyOf test' bs := by
  induction all with
  | nil => rfl
  | cons first _ ih => rw [anyOf, anyOf, same _ _ first, ih]

theorem all_of_congr (all : List.Forall₂ related as bs) (same : ∀ a b, related a b → test a = test' b) :
    allOf test as = allOf test' bs := by
  induction all with
  | nil => rfl
  | cons first _ ih => rw [allOf, allOf, same _ _ first, ih]

end AliasSearch

namespace Schema

/-- What is met at the same place of two schemas. -/
inductive VisitAlike (s s' : Schema) : Visit → Visit → Prop where
  | error {e e'} (alike : s.ErrorAlike s' e e') : VisitAlike s s' (.error e) (.error e')
  | definition {d d'} (notes : d.notes = d'.notes) : VisitAlike s s' (.definition d) (.definition d')
  | operation {o o'} (alike : s.OperationAlike s' o o') : VisitAlike s s' (.operation o) (.operation o')
  | field {id id'} (alike : s.FieldResembles s' (s.field id) (s'.field id')) :
    VisitAlike s s' (.field id) (.field id')
  | value {v v'} (alike : s.ValueResembles s' v v') : VisitAlike s s' (.value v) (.value v')
  | reference {name location location'} :
    VisitAlike s s' (.reference name location) (.reference name location')
  | struct {t t'} (alike : s.Resembles s' (.struct t) (.struct t')) :
    VisitAlike s s' (.struct t) (.struct t')
  | enum {e e'} (alike : s.Resembles s' (.enum e) (.enum e')) : VisitAlike s s' (.enum e) (.enum e')

variable {s s' : Schema}

theorem Resembles.contains {base base' part : TypeBase} (alike : s.Resembles s' base base')
    (contains : s.Contains base part) : ∃ part', s'.Contains base' part' ∧ s.Resembles s' part part' := by
  induction contains with
  | refl => exact ⟨base', .refl, alike⟩
  | tail _ nests ih =>
    obtain ⟨middle, contains', alike'⟩ := ih
    obtain ⟨part', nests', alike''⟩ := alike'.nests nests
    exact ⟨part', contains'.tail nests', alike''⟩

theorem Resembles.shows {base base' : TypeBase} {v : Visit} (alike : s.Resembles s' base base')
    (shown : s.Shows base v) : ∃ v', s'.Shows base' v' ∧ s.VisitAlike s' v v' := by
  cases shown with
  | reference =>
    obtain ⟨_, rfl⟩ := alike.reference
    exact ⟨_, .reference, .reference⟩
  | struct =>
    obtain ⟨t', rfl, _⟩ := alike.struct
    exact ⟨_, .struct, .struct alike⟩
  | enum =>
    obtain ⟨e', rfl, _⟩ := alike.enum
    exact ⟨_, .enum, .enum alike⟩
  | field held =>
    obtain ⟨t', rfl, _⟩ := alike.struct
    obtain ⟨id', held', matched⟩ := alike.holds held
    exact ⟨_, .field held', .field matched⟩
  | spread member =>
    obtain ⟨t', rfl, members, _⟩ := alike.struct
    obtain ⟨_, member', matched⟩ := exists_right members member
    cases matched with
    | spread => exact ⟨_, .spread member', .reference⟩
  | value member =>
    obtain ⟨e', rfl, values⟩ := alike.enum
    obtain ⟨v', member', matched⟩ := exists_right values member
    exact ⟨_, .value member', .value matched⟩

theorem Alike.visits (alike : s.Alike s') {v : Visit} (visits : s.Visits v) :
    ∃ v', s'.Visits v' ∧ s.VisitAlike s' v v' := by
  cases visits with
  | error member =>
    obtain ⟨e', member', same⟩ := exists_right alike.errors member
    exact ⟨_, .error member', .error same⟩
  | definition member =>
    obtain ⟨d', member', _, notes⟩ := alike.left _ member
    exact ⟨_, .definition member', .definition notes⟩
  | operation member =>
    obtain ⟨o', member', same⟩ := exists_right alike.operations member
    exact ⟨_, .operation member', .operation same⟩
  | argument member held =>
    obtain ⟨o', member', same⟩ := exists_right alike.operations member
    rcases held with written | held
    · obtain ⟨_, written', matched⟩ := exists_right same.members written
      cases matched with
      | field matched => exact ⟨_, .argument member' (.inl written'), .field matched⟩
    · obtain ⟨_, held', matched⟩ := exists_right same.args held
      exact ⟨_, .argument member' (.inr held'), .field matched⟩
  | inside declared meets =>
    obtain ⟨part, contains, shown⟩ := meets
    obtain ⟨base', declared', same⟩ := alike.declares declared
    obtain ⟨part', contains', same'⟩ := same.contains contains
    obtain ⟨v', shown', matched⟩ := same'.shows shown
    exact ⟨v', .inside declared' ⟨part', contains', shown'⟩, matched⟩

theorem VisitAlike.symm {v v' : Visit} (alike : s.VisitAlike s' v v') : s'.VisitAlike s v' v := by
  cases alike with
  | error alike => exact .error alike.symm
  | definition notes => exact .definition notes.symm
  | operation alike => exact .operation alike.symm
  | field alike => exact .field alike.symm
  | value alike => exact .value alike.symm
  | reference => exact .reference
  | struct alike => exact .struct alike.symm
  | enum alike => exact .enum alike.symm

namespace Alike

theorem grounded (alike : s.Alike s') (grounded : s.Grounded) : s'.Grounded := by
  intro base declared
  obtain ⟨before, declared', same⟩ := alike.symm.declares declared
  refine acyclic_iff.mpr fun deep => acyclic_iff.mp (grounded before declared') ?_
  rw [alike.bound]
  exact same.deep deep

theorem all_visits (alike : s.Alike s') (grounded : s.Grounded) {motive motive' : Visit → Prop}
    (all : ∀ v ∈ s.walk.visits, motive v)
    (like : ∀ v v', s.VisitAlike s' v v' → motive v → motive' v') :
    ∀ v ∈ s'.walk.visits, motive' v := by
  intro v' met
  obtain ⟨v, visits, same⟩ := alike.symm.visits ((mem_walk (alike.grounded grounded)).mp met)
  exact like v v' same.symm (all v ((mem_walk grounded).mpr visits))

theorem check_references (alike : s.Alike s') (grounded : s.Grounded)
    (passed : s.checkReferences = .ok ()) : s'.checkReferences = .ok () := by
  have bound : ∀ name, (s.definition? name).isSome → (s'.definition? name).isSome := by
    intro name bound
    obtain ⟨d, defined⟩ := Option.isSome_iff_exists.mp bound
    obtain ⟨d', defined', _⟩ := exists_of_rel (alike.first name) defined
    exact Option.isSome_iff_exists.mpr ⟨d', defined'⟩
  have all : ∀ v ∈ s'.walk.visits, ∀ name location, v = .reference name location →
      (s'.definition? name).isSome := by
    refine alike.all_visits grounded (motive := fun v => ∀ name location,
      v = .reference name location → (s.definition? name).isSome) ?_ ?_
    · rintro _ met name location rfl
      exact check_bound_ok.mp passed name location met
    · rintro v v' same holds name location rfl
      cases same with
      | reference => exact bound name (holds name _ rfl)
  exact check_bound_ok.mpr fun name location met => all _ met name location rfl

theorem check_secrets (alike : s.Alike s') (passed : s.checkSecrets = .ok ()) :
    s'.checkSecrets = .ok () := by
  cases outcome : s'.checkSecrets with
  | ok _ => rfl
  | error e =>
    obtain ⟨⟨o', member', exposes⟩, _⟩ := check_secrets_error outcome
    obtain ⟨o, member, same⟩ := exists_left alike.operations member'
    have exposes := same.returns.base.symm.exposes alike.symm.meanings exposes
    exact absurd exposes (not_exposes_of_check_secrets passed member)

theorem check_emptiness (alike : s.Alike s') (passed : s.checkEmptiness = .ok ()) :
    s'.checkEmptiness = .ok () := by
  have grounded := grounded_of_check_emptiness passed
  rw [check_emptiness_cases] at passed ⊢
  have filled : ∀ v ∈ s'.walk.visits, s'.Filled v := by
    refine alike.all_visits grounded (motive := s.Filled) ?_ ?_
    · split at passed
      · cases passed
      · next outcome => exact check_not_empty_ok.mp outcome
    · intro v v' same filled
      cases same with
      | struct alike =>
        obtain ⟨_, same, _, fields⟩ := alike.struct
        cases same
        exact fun none => filled (List.forall₂_nil_right_iff.mp (none ▸ fields))
      | enum alike =>
        obtain ⟨_, same, values⟩ := alike.enum
        cases same
        exact fun none => filled (List.forall₂_nil_right_iff.mp (none ▸ values))
      | _ => trivial
  rw [check_not_empty_ok.mpr filled]
  exact if_pos (walk_ends.mpr (alike.grounded grounded))

end Alike

section Recursions

theorem TypeAlike.is_nested {t t' : TypeUse} (alike : s.TypeAlike s' t t') :
    t.isNested = t'.isNested := by
  obtain ⟨suffixes, base⟩ := t
  obtain ⟨suffixes', base'⟩ := t'
  obtain ⟨same, behind⟩ := alike
  cases same
  have shape := behind 0
  cases base <;> cases base' <;> simp_all [TypeUse.isNested]

theorem Alike.reaches_name (alike : s.Alike s') (name : String) (fuel : Nat) :
    ∀ {base base'}, s.Resembles s' base base' →
      s.reachesName name fuel base = s'.reachesName name fuel base' := by
  induction fuel with
  | zero => exact fun _ => rfl
  | succ fuel ih =>
    intro base base' same
    cases base with
    | primitive kind => rw [same.primitive]; rfl
    | reference other location =>
      obtain ⟨location', rfl⟩ := same.reference
      have first := alike.first other
      cases defined : s.definition? other with
      | none => simp only [reachesName, defined, none_of_rel first defined]
      | some d =>
        obtain ⟨d', defined', like⟩ := exists_of_rel first defined
        simp only [reachesName, defined, defined', like.type.is_nested, ih like.type.base]
    | struct t =>
      obtain ⟨t', rfl, _, fields⟩ := same.struct
      exact AliasSearch.any_of_congr fields fun _ _ field => ih field.base
    | enum e =>
      obtain ⟨e', rfl, values⟩ := same.enum
      refine AliasSearch.any_of_congr values fun v v' value => ?_
      cases data : v.data with
      | none => rw [none_of_rel value.data data]
      | some t =>
        obtain ⟨t', data', like⟩ := exists_of_rel value.data data
        rw [data']
        exact ih like

theorem Alike.requires_name (alike : s.Alike s') (name : String) (fuel : Nat) :
    ∀ {t t'}, s.TypeAlike s' t t' → s.requiresName name fuel t = s'.requiresName name fuel t' := by
  induction fuel with
  | zero => exact fun _ => rfl
  | succ fuel ih =>
    have aliases : ∀ next place place',
        s.TypeAlike s' ⟨[], .reference next place⟩ ⟨[], .reference next place'⟩ :=
      fun next place place' => ⟨rfl, fun depth => by simp⟩
    rintro ⟨suffixes, base⟩ ⟨_, base'⟩ ⟨rfl, same⟩
    cases suffixes with
    | cons suffix rest => rfl
    | nil =>
      cases base with
      | primitive kind => cases same.primitive; rfl
      | reference other location =>
        obtain ⟨location', rfl⟩ := same.reference
        have first := alike.first other
        cases defined : s.definition? other with
        | none => simp only [requiresName, defined, none_of_rel first defined]
        | some d =>
          obtain ⟨d', defined', _, like⟩ := exists_of_rel first defined
          obtain ⟨_, ⟨ahead, behind⟩, _, _⟩ := d
          obtain ⟨_, ⟨_, behind'⟩, _, _⟩ := d'
          obtain ⟨rfl, base⟩ := like
          cases ahead with
          | cons suffix rest => simp only [requiresName, defined, defined']
          | nil =>
            cases behind with
            | reference next place =>
              obtain ⟨place', rfl⟩ := Resembles.reference base
              simp only [requiresName, defined, defined', ih (aliases next place place')]
            | primitive kind =>
              cases Resembles.primitive base
              simp only [requiresName, defined, defined']
            | struct t =>
              obtain ⟨t', rfl, _⟩ := Resembles.struct base
              simp only [requiresName, defined, defined']
            | enum e =>
              obtain ⟨e', rfl, _⟩ := Resembles.enum base
              simp only [requiresName, defined, defined']
      | struct t =>
        obtain ⟨t', rfl, _, fields⟩ := same.struct
        exact AliasSearch.any_of_congr fields fun _ _ field => ih ⟨field.suffixes, field.base⟩
      | enum e =>
        obtain ⟨e', rfl, values⟩ := same.enum
        refine AliasSearch.all_of_congr values fun v v' value => ?_
        cases data : v.data with
        | none => rw [none_of_rel value.data data]
        | some t =>
          obtain ⟨t', data', like⟩ := exists_of_rel value.data data
          rw [data']
          exact ih ⟨rfl, like⟩

theorem Alike.check_recursions (alike : s.Alike s') (passed : s.checkRecursions = .ok ()) :
    s'.checkRecursions = .ok () := by
  have bound : s.recursionBound = s'.recursionBound := by
    rw [recursionBound, recursionBound, alike.count, alike.bound]
  refine check_recursions_ok.mpr fun d' member' => ?_
  obtain ⟨d, member, same, _⟩ := alike.right d' member'
  have recursive : s.isRecursive d = s'.isRecursive d' := by
    rw [isRecursive, isRecursive, bound, same.name, alike.reaches_name _ _ same.type.base]
  have endless : s.isEndless d = s'.isEndless d' := by
    rw [isEndless, isEndless, bound, same.name, alike.requires_name _ _ same.type]
  rw [← recursive, ← endless, ← same.type.is_nested]
  exact check_recursions_ok.mp passed d member

end Recursions

section Notes

theorem descriptions_of_plain {notes notes' : List Note}
    (same : notes.map Note.plain = notes'.map Note.plain)
    (passed : notes.forM checkDescription = .ok ()) : notes'.forM checkDescription = .ok () := by
  refine forM_ok_iff.mpr fun n' member' => ?_
  have member : n'.plain ∈ notes.map Note.plain := same ▸ List.mem_map_of_mem member'
  obtain ⟨n, member, plain⟩ := List.mem_map.mp member
  have content : n.plain.content = n'.plain.content := congrArg _ plain
  change n.content = n'.content at content
  have described := forM_ok_iff.mp passed n member
  unfold checkDescription at described ⊢
  rw [← content]
  split at described
  · rfl
  · cases described

theorem TypeAlike.required {t t' : TypeUse} (alike : s.TypeAlike s' t t') :
    s.TypeAlike s' (Schema.required t) (Schema.required t') := by
  obtain ⟨suffixes, base⟩ := t
  obtain ⟨suffixes', base'⟩ := t'
  obtain ⟨same, behind⟩ := alike
  cases same
  cases suffixes with
  | nil => exact ⟨rfl, behind⟩
  | cons suffix rest => cases suffix <;> exact ⟨rfl, behind⟩

theorem TypeAlike.is_primitive {t t' : TypeUse} (alike : s.TypeAlike s' t t') (kind : Primitive) :
    t.isPrimitive kind = t'.isPrimitive kind := by
  obtain ⟨suffixes, base⟩ := t
  obtain ⟨suffixes', base'⟩ := t'
  obtain ⟨same, behind⟩ := alike
  cases same
  have shape := behind 0
  cases base <;> cases base' <;> simp_all [TypeUse.isPrimitive] <;> rfl

theorem Alike.unwrap (alike : s.Alike s') {t t' u : TypeUse} (same : s.TypeAlike s' t t')
    (unwrapped : s.unwrap t = .ok u) : ∃ u', s'.unwrap t' = .ok u' ∧ s.TypeAlike s' u u' := by
  by_cases onward : ∃ name location, t = ⟨[], .reference name location⟩
  · obtain ⟨name, location, rfl⟩ := onward
    obtain ⟨location', rfl⟩ := same.alias
    obtain ⟨d, _, d', _, like, rfl, resolved'⟩ := alike.resolve unwrapped
    exact ⟨d'.type, resolved', like.type⟩
  · have own : s.unwrap t = .ok t := by
      unfold Schema.unwrap
      split
      · exact absurd ⟨_, _, rfl⟩ onward
      · rfl
    cases own.symm.trans unwrapped
    refine ⟨t', ?_, same⟩
    unfold Schema.unwrap
    split
    · next name location =>
      obtain ⟨location', written⟩ := same.symm.alias
      exact absurd ⟨_, _, written⟩ onward
    · rfl

theorem Alike.rest_type (alike : s.Alike s') {t t' : TypeUse} (same : s.TypeAlike s' t t')
    {answer : Bool} (asked : s.isRestType t = .ok answer) : s'.isRestType t' = .ok answer := by
  unfold isRestType at asked ⊢
  cases unwrapped : s.unwrap t with
  | error e =>
    rw [unwrapped] at asked
    cases asked
  | ok u =>
    obtain ⟨u', unwrapped', suffixes, base⟩ := alike.unwrap same unwrapped
    rw [unwrapped] at asked
    rw [unwrapped', ← asked]
    obtain ⟨ahead, behind⟩ := u
    obtain ⟨ahead', behind'⟩ := u'
    cases suffixes
    have shape := base 0
    cases ahead <;> cases behind <;> cases behind' <;> simp_all

variable {args args' : List Field}

theorem find_alike (fields : List.Forall₂ (s.FieldResembles s') args args') (name : String) :
    Option.Rel (s.FieldResembles s') (args.find? (·.name == name)) (args'.find? (·.name == name)) :=
  find_rel fields fun _ _ same => by rw [same.name]

theorem Alike.rest_variable (alike : s.Alike s')
    (fields : List.Forall₂ (s.FieldResembles s') args args') {m : RestMapping} {location : Location}
    {name : String} (passed : s.checkRestVariable args m location name = .ok ()) :
    s'.checkRestVariable args' m location name = .ok () := by
  have found := find_alike fields name
  unfold checkRestVariable at passed ⊢
  cases first : args.find? (·.name == name) with
  | none =>
    rw [first] at passed
    cases passed
  | some arg =>
    obtain ⟨arg', first', same⟩ := exists_of_rel found first
    have type : s.TypeAlike s' arg.type arg'.type := ⟨same.suffixes, same.base⟩
    have optional : arg.type.isOptional = arg'.type.isOptional := by
      rw [TypeUse.isOptional, TypeUse.isOptional, same.suffixes]
    simp only [first] at passed
    simp only [first', ← optional]
    split at passed
    · cases passed
    · next suits =>
      rw [if_neg suits]
      cases asked : s.isRestType (required arg.type) with
      | error e =>
        rw [asked] at passed
        cases passed
      | ok answer =>
        rw [asked] at passed
        rw [alike.rest_type type.required asked]
        cases answer with
        | true => rfl
        | false => cases passed

theorem Alike.check_rest (alike : s.Alike s') {o o' : Operation} (same : s.OperationAlike s' o o')
    {m : RestMapping} {location : Location} (passed : s.checkRest o m location = .ok ()) :
    s'.checkRest o' m location = .ok () := by
  have fields : List.Forall₂ (s.FieldResembles s') (o.args.map s.field) (o'.args.map s'.field) := by
    rw [List.forall₂_map_left_iff, List.forall₂_map_right_iff]
    exact same.args
  obtain ⟨once, named, body, arguments, returns⟩ := check_rest_ok.mp passed
  refine check_rest_ok.mpr ⟨once, ?_, ?_, ?_, ?_⟩
  · exact fun name member => alike.rest_variable fields (named name member)
  · intro name bound
    obtain ⟨arg, member, found⟩ := List.any_eq_true.mp (body name bound)
    obtain ⟨arg', member', matched⟩ := exists_right fields member
    exact List.any_eq_true.mpr ⟨arg', member', matched.name ▸ found⟩
  · intro arg' member'
    obtain ⟨arg, member, matched⟩ := exists_left fields member'
    have before := arguments arg member
    rwa [checkRestArgument, matched.name, matched.secret] at before
  · rwa [← same.returns.is_primitive]

theorem Alike.operation_note (alike : s.Alike s') {o o' : Operation}
    (same : s.OperationAlike s' o o') {n : Note} (passed : s.checkOperationNote o n = .ok ()) :
    s'.checkOperationNote o' n = .ok () := by
  unfold checkOperationNote at passed ⊢
  split at passed
  · next error _ =>
    split at passed
    · next known =>
      obtain ⟨e, member, found⟩ := List.any_eq_true.mp known
      obtain ⟨e', member', like⟩ := exists_right alike.errors member
      exact if_pos (List.any_eq_true.mpr ⟨e', member', like.name ▸ found⟩)
    · cases passed
  · exact alike.check_rest same passed
  · rfl
  · exact passed

theorem Alike.visit_notes (alike : s.Alike s') {v v' : Visit} (same : s.VisitAlike s' v v')
    (passed : s.checkVisitNotes v = .ok ()) : s'.checkVisitNotes v' = .ok () := by
  cases same with
  | error same =>
    rwa [checkVisitNotes, same.notes] at passed
  | definition notes =>
    rwa [checkVisitNotes, notes] at passed
  | operation same =>
    simp only [checkVisitNotes, same.notes] at passed ⊢
    exact forM_ok_iff.mpr fun n member => alike.operation_note same (forM_ok_iff.mp passed n member)
  | field same => exact descriptions_of_plain same.notes passed
  | value same => exact descriptions_of_plain same.notes passed
  | _ => rfl

theorem Alike.check_notes (alike : s.Alike s') (grounded : s.Grounded)
    (passed : s.checkNotes = .ok ()) : s'.checkNotes = .ok () :=
  forM_ok_iff.mpr (alike.all_visits grounded (forM_ok_iff.mp passed) fun _ _ => alike.visit_notes)

end Notes

theorem Alike.check_repetition (alike : s.Alike s') (grounded : s.Grounded)
    (passed : s.checkRepetition = .ok ()) : s'.checkRepetition = .ok () := by
  have all : ∀ v ∈ s'.walk.visits, ∀ e, v = .enum e → ((s'.enum e).values.map (·.text)).Nodup := by
    refine alike.all_visits grounded
      (motive := fun v => ∀ e, v = .enum e → ((s.enum e).values.map (·.text)).Nodup) ?_ ?_
    · rintro _ met e rfl
      exact check_repeated_ok.mp passed e met
    · rintro v v' same holds e' rfl
      cases same with
      | @enum e _ like =>
        obtain ⟨_, same, values⟩ := like.enum
        cases same
        have texts := map_eq_of_forall values fun _ _ value => value.text
        exact texts ▸ holds e rfl
  exact check_repeated_ok.mpr fun e met => all _ met e rfl

theorem collect_check_notes (s : Schema) : s.collectTypes.checkNotes = s.checkNotes := by
  rw [checkNotes, collect_walk]
  rfl

theorem collect_check_repetition (s : Schema) :
    s.collectTypes.checkRepetition = s.checkRepetition := by
  have same : ∀ visits, s.collectTypes.checkRepeatedValues visits = s.checkRepeatedValues visits := by
    intro visits
    induction visits with
    | nil => rfl
    | cons v rest ih =>
      cases v with
      | enum e => simp only [checkRepeatedValues, s.collect_same_types.enum, ih]
      | _ => exact ih
  rw [checkRepetition, checkRepetition, collect_walk, same]

theorem Alike.completed (alike : s.Alike s') {final : Schema} (passed : s.completed = .ok final) :
    s'.completed = .ok s'.collectTypes := by
  obtain ⟨emptiness, recursions, rfl, notes, repetition⟩ := eq_collect_of_completed passed
  have grounded := grounded_of_check_emptiness emptiness
  rw [collect_check_notes] at notes
  rw [collect_check_repetition] at repetition
  simp only [Schema.completed, alike.check_emptiness emptiness, alike.check_recursions recursions,
    collect_check_notes, alike.check_notes grounded notes, collect_check_repetition,
    alike.check_repetition grounded repetition]
  rfl

end Schema

end ApiSchema
