import ApiSchema.Proofs.Analysis.Expansion
import ApiSchema.Proofs.Analysis.Labelling
import ApiSchema.Proofs.Analysis.Likeness

/-! The expansion of schemas of like declarations. Whatever the order in which structs are entered,
they get the same fields, so that what is expanded is alike again and has the same names. -/

namespace ApiSchema.Schema

/-- Types of one shape to which some path leads in both schemas, so that they get one name. -/
structure Twins (s s' : Schema) (base base' : TypeBase) : Prop where
  alike : s.Resembles s' base base'
  called : base.IsNested → ∃ path, s.Called path base ∧ s'.Called path base'

structure TypeTwins (s s' : Schema) (t t' : TypeUse) : Prop where
  suffixes : t.suffixes = t'.suffixes
  base : s.Twins s' t.base t'.base

structure FieldTwins (s s' : Schema) (id id' : FieldId) : Prop where
  alike : s.FieldResembles s' (s.field id) (s'.field id')
  base : s.Twins s' (s.field id).type.base (s'.field id').type.base

structure OperationTwins (s s' : Schema) (o o' : Operation) : Prop where
  name : o.name = o'.name
  members : o.members = []
  members' : o'.members = []
  args : List.Forall₂ (s.FieldTwins s') o.args o'.args
  returns : s.TypeTwins s' o.returns o'.returns
  notes : o.notes = o'.notes

inductive MemberTwins (s s' : Schema) : Member → Member → Prop where
  | field {id id'} (twins : s.FieldTwins s' id id') : MemberTwins s s' (.field id) (.field id')
  | spread {name nameLocation location nameLocation' location'} :
    MemberTwins s s' (.spread name nameLocation location) (.spread name nameLocation' location')

structure ValueTwins (s s' : Schema) (v v' : EnumValue) : Prop where
  text : v.text = v'.text
  data : Option.Rel (fun t t' => s.Twins s' (.struct t) (.struct t')) v.data v'.data
  notes : v.notes.map Note.plain = v'.notes.map Note.plain

variable {g g' : Schema}

namespace Twins

variable {base base' : TypeBase}

theorem symm (twins : g.Twins g' base base') : g'.Twins g base' base where
  alike := twins.alike.symm
  called nested := by
    obtain ⟨path, called, called'⟩ := twins.called (twins.alike.symm.nested nested)
    exact ⟨path, called', called⟩

theorem of_called {path : List String} (alike : g.Resembles g' base base')
    (called : g.Called path base) (called' : g'.Called path base') : g.Twins g' base base' :=
  ⟨alike, fun _ => ⟨path, called, called'⟩⟩

theorem inside {label : String} {part part' : TypeBase} (twins : g.Twins g' base base')
    (nests : g.NestsAs base label part) (nests' : g'.NestsAs base' label part')
    (alike : g.Resembles g' part part') : g.Twins g' part part' := by
  obtain ⟨path, called, called'⟩ := twins.called nests.nests.nested
  exact .of_called alike (called.inside nests) (called'.inside nests')

theorem known (twins : g.Twins g' base base') (nested : base.IsNested) : g.Known base := by
  obtain ⟨_, called, _⟩ := twins.called nested
  exact called.known

theorem base_name (names : g.NamedByPaths) (names' : g'.NamedByPaths)
    (twins : g.Twins g' base base') : g.baseName base = g'.baseName base' := by
  by_cases nested : base.IsNested
  · obtain ⟨path, called, called'⟩ := twins.called nested
    rw [names path base called nested, names' path base' called' (twins.alike.nested nested)]
  · cases base with
    | primitive kind => rw [twins.alike.primitive]; rfl
    | reference name location =>
      obtain ⟨_, rfl⟩ := twins.alike.reference
      rfl
    | _ => exact absurd trivial nested

section Struct

variable {t t' : StructId}

theorem members (twins : g.Twins g' (.struct t) (.struct t')) :
    List.Forall₂ (g.MemberTwins g') (g.struct t).members (g'.struct t').members := by
  obtain ⟨_, same, members, _⟩ := twins.alike.struct
  cases same
  refine forall_of_mem members fun m member m' member' matched => ?_
  cases matched with
  | spread => exact .spread
  | field matched =>
    refine .field ⟨matched, twins.inside (.field (.inl member)) ?_ matched.base⟩
    exact matched.name ▸ .field (.inl member')

theorem fields (twins : g.Twins g' (.struct t) (.struct t')) :
    List.Forall₂ (g.FieldTwins g') (g.struct t).fields (g'.struct t').fields := by
  obtain ⟨_, same, _, fields⟩ := twins.alike.struct
  cases same
  refine forall_of_mem fields fun id member id' member' matched => ?_
  refine ⟨matched, twins.inside (.field (.inr member)) ?_ matched.base⟩
  exact matched.name ▸ .field (.inr member')

end Struct

theorem values {e e' : EnumId} (twins : g.Twins g' (.enum e) (.enum e')) :
    List.Forall₂ (g.ValueTwins g') (g.enum e).values (g'.enum e').values := by
  obtain ⟨_, same, values⟩ := twins.alike.enum
  cases same
  refine forall_of_mem values fun v member v' member' ⟨text, data, notes⟩ => ⟨text, ?_, notes⟩
  cases first : v.data with
  | none =>
    rw [none_of_rel data first]
    exact .none
  | some t =>
    obtain ⟨t', second, alike⟩ := exists_of_rel data first
    rw [second]
    exact .some (twins.inside (.value member first) (text ▸ .value member' second) alike)

end Twins

theorem TypeTwins.type_name (names : g.NamedByPaths) (names' : g'.NamedByPaths) {t t' : TypeUse}
    (twins : g.TypeTwins g' t t') : g.typeName t = g'.typeName t' := by
  rw [typeName, typeName, twins.suffixes, twins.base.base_name names names']

namespace Alike

theorem definition_twins {d d' : Definition} (member : d ∈ g.definitions)
    (member' : d' ∈ g'.definitions) (same : g.DefinitionAlike g' d d') :
    g.TypeTwins g' d.type d'.type :=
  ⟨same.type.suffixes, .of_called same.type.base (.definition member) (same.name ▸ .definition member')⟩

theorem error_twins {e e' : ErrorKind} (member : e ∈ g.errors) (member' : e' ∈ g'.errors)
    (same : g.ErrorAlike g' e e') : g.TypeTwins g' e.data e'.data :=
  ⟨same.data.suffixes, .of_called same.data.base (.error member) (same.name ▸ .error member')⟩

variable {o o' : Operation}

theorem result_twins (member : o ∈ g.operations) (member' : o' ∈ g'.operations)
    (same : g.OperationAlike g' o o') : g.TypeTwins g' o.returns o'.returns :=
  ⟨same.returns.suffixes, .of_called same.returns.base (.returns member) (same.name ▸ .returns member')⟩

theorem argument_twins (member : o ∈ g.operations) (member' : o' ∈ g'.operations)
    (name : o.name = o'.name) {id id' : FieldId} (held : .field id ∈ o.members ∨ id ∈ o.args)
    (held' : .field id' ∈ o'.members ∨ id' ∈ o'.args)
    (same : g.FieldResembles g' (g.field id) (g'.field id')) : g.FieldTwins g' id id' := by
  have called' := Called.argument member' held'
  rw [← name, ← same.name] at called'
  exact ⟨same, .of_called same.base (.argument member held) called'⟩

theorem member_twins (member : o ∈ g.operations) (member' : o' ∈ g'.operations)
    (same : g.OperationAlike g' o o') : List.Forall₂ (g.MemberTwins g') o.members o'.members := by
  refine forall_of_mem same.members fun m held m' held' matched => ?_
  cases matched with
  | spread => exact .spread
  | field matched =>
    exact .field (argument_twins member member' same.name (.inl held) (.inl held') matched)

theorem args_twins (member : o ∈ g.operations) (member' : o' ∈ g'.operations)
    (same : g.OperationAlike g' o o') : List.Forall₂ (g.FieldTwins g') o.args o'.args :=
  forall_of_mem same.args fun _ held _ held' matched =>
    argument_twins member member' same.name (.inr held) (.inr held') matched

theorem spread_twins (alike : g.Alike g') {name : String} {u : StructId}
    (resolved : g.resolve name = .ok ⟨[], .struct u⟩) :
    ∃ u', g'.resolve name = .ok ⟨[], .struct u'⟩ ∧ g.Twins g' (.struct u) (.struct u') := by
  obtain ⟨d, member, d', member', same, written, resolved'⟩ := alike.resolve resolved
  obtain ⟨suffixes, base⟩ := definition_twins member member' same
  cases type : d'.type with
  | mk ahead behind =>
    rw [written, type] at suffixes base
    cases suffixes
    obtain ⟨u', rfl, _⟩ := base.alike.struct
    exact ⟨u', by rw [resolved', type], base⟩

end Alike

/-- Schemas of like declarations, each with what it is expanded to. -/
structure Parallel (g g' x x' : Schema) : Prop where
  alike : g.Alike g'
  expands : g.Expands x
  gathers : g.Gathers x
  expands' : g'.Expands x'
  gathers' : g'.Gathers x'
  names : g.NamedByPaths
  names' : g'.NamedByPaths

namespace Parallel

variable {x x' : Schema}

theorem symm (both : Parallel g g' x x') : Parallel g' g x' x :=
  ⟨both.alike.symm, both.expands', both.gathers', both.expands, both.gathers, both.names',
    both.names⟩

theorem field (both : Parallel g g' x x') (id : FieldId) : x.field id = g.field id :=
  both.expands.inherits.field id

theorem enum (both : Parallel g g' x x') (e : EnumId) : x.enum e = g.enum e :=
  both.expands.inherits.enum e

theorem resolve (both : Parallel g g' x x') (name : String) : x.resolve name = g.resolve name :=
  both.expands.inherits.resolve name

theorem add_field (both : Parallel g g' x x') {id id' : FieldId} (twins : g.FieldTwins g' id id')
    {ids ids' : List FieldId} (all : List.Forall₂ (g.FieldTwins g') ids ids') :
    List.Forall₂ (g.FieldTwins g') (Spreading.addField x id ids) (Spreading.addField x' id' ids') := by
  induction all with
  | nil => exact .cons twins .nil
  | cons first rest ih =>
    have name : ∀ {id id'}, g.FieldTwins g' id id' → (x'.field id').name = (x.field id).name := by
      intro id id' twins
      rw [both.field, both.symm.field, twins.alike.name]
    simp only [Spreading.addField, name first, name twins]
    split
    · exact .cons twins rest
    · exact .cons first ih

theorem add_fields (both : Parallel g g' x x') {brought brought' : List FieldId}
    (added : List.Forall₂ (g.FieldTwins g') brought brought') :
    ∀ {ids ids'}, List.Forall₂ (g.FieldTwins g') ids ids' →
      List.Forall₂ (g.FieldTwins g') (brought.foldl (fun ids id => Spreading.addField x id ids) ids)
        (brought'.foldl (fun ids id => Spreading.addField x' id ids) ids') := by
  induction added with
  | nil => exact id
  | cons first _ ih => exact fun all => ih (both.add_field first all)

theorem gather (both : Parallel g g' x x') {members members' : List Member}
    (written : List.Forall₂ (g.MemberTwins g') members members') (aimed : g.Aimed members)
    (spread : ∀ u u', g.Spreads members u → g.Twins g' (.struct u) (.struct u') →
      List.Forall₂ (g.FieldTwins g') (x.struct u).fields (x'.struct u').fields) :
    ∀ {ids ids'}, List.Forall₂ (g.FieldTwins g') ids ids' →
      List.Forall₂ (g.FieldTwins g') (x.gather members ids) (x'.gather members' ids') := by
  induction written with
  | nil => exact id
  | @cons m m' rest rest' first _ ih =>
    have below : ∀ u, g.Spreads rest u → g.Spreads (m :: rest) u :=
      fun u ⟨name, nameLocation, location, member, resolved⟩ =>
        ⟨name, nameLocation, location, List.mem_cons_of_mem _ member, resolved⟩
    have later : ∀ {ids ids'}, List.Forall₂ (g.FieldTwins g') ids ids' →
        List.Forall₂ (g.FieldTwins g') (x.gather rest ids) (x'.gather rest' ids') := by
      refine ih ?_ fun u u' spreads => spread u u' (below u spreads)
      exact fun name nameLocation location member =>
        aimed name nameLocation location (List.mem_cons_of_mem _ member)
    intro ids ids' all
    cases first with
    | field twins => exact later (both.add_field twins all)
    | @spread name nameLocation location =>
      obtain ⟨u, resolved⟩ := aimed name nameLocation location (List.mem_cons_self ..)
      obtain ⟨u', resolved', twins⟩ := both.alike.spread_twins resolved
      have spreads : g.Spreads (.spread name nameLocation location :: rest) u :=
        ⟨name, nameLocation, location, List.mem_cons_self .., resolved⟩
      have none := (both.gathers.structs u (twins.known trivial)).1
      have none' := (both.gathers'.structs u' (twins.symm.known trivial)).1
      simp only [Schema.gather]
      rw [fields_of_expanded ((both.resolve name).trans resolved) none,
        fields_of_expanded ((both.symm.resolve name).trans resolved') none']
      exact later (both.add_fields (spread u u' spreads twins) all)

theorem fields (both : Parallel g g' x x') {t t' : StructId}
    (twins : g.Twins g' (.struct t) (.struct t')) :
    List.Forall₂ (g.FieldTwins g') (x.struct t).fields (x'.struct t').fields := by
  induction both.gathers.founded t (twins.known trivial) generalizing t' with
  | intro t _ ih =>
    have known := twins.known trivial
    rw [(both.gathers.structs t known).2, (both.gathers'.structs t' (twins.symm.known trivial)).2]
    refine List.rel_append twins.fields (both.gather twins.members ?_ ?_ .nil)
    · exact both.gathers.aimed _ (.struct known)
    · exact fun u u' spreads twins => ih u spreads twins

theorem shape (both : Parallel g g' x x') (depth : Nat) :
    ∀ {base base'}, g.Twins g' base base' → x.shape depth base = x'.shape depth base' := by
  induction depth with
  | zero =>
    intro base base' twins
    have same := twins.alike 0
    cases base <;> cases base' <;> simp_all
  | succ depth ih =>
    intro base base' twins
    cases base with
    | primitive kind => rw [twins.alike.primitive]; simp
    | reference name location =>
      obtain ⟨_, rfl⟩ := twins.alike.reference
      simp
    | struct t =>
      obtain ⟨t', rfl, _⟩ := twins.alike.struct
      have none := (both.gathers.structs t (twins.known trivial)).1
      have none' := (both.gathers'.structs t' (twins.symm.known trivial)).1
      simp only [shape_struct_succ, none, none', List.map_nil, TypeTree.struct.injEq, true_and, and_true]
      refine map_eq_of_forall (both.fields twins) fun id id' field => ?_
      obtain ⟨name, suffixes, _, secret, notes⟩ := field.alike
      simp only [fieldShape, both.field, both.symm.field, FieldTree.mk.injEq, and_true]
      exact ⟨name, by rw [suffixes, ih field.base], secret, notes⟩
    | enum e =>
      obtain ⟨e', rfl, values⟩ := twins.alike.enum
      simp only [shape_enum_succ, both.enum, both.symm.enum, TypeTree.enum.injEq, true_and, and_true]
      refine map_eq_of_forall twins.values fun v v' value => ?_
      obtain ⟨text, data, notes⟩ := value
      simp only [valueShape, ValueTree.mk.injEq, and_true]
      refine ⟨text, ?_, notes⟩
      cases v
      cases v'
      cases data with
      | none => rfl
      | some twins => exact congrArg some (ih twins)

theorem resembles (both : Parallel g g' x x') {base base' : TypeBase}
    (twins : g.Twins g' base base') : x.Resembles x' base base' :=
  fun depth => both.shape depth twins

theorem type_alike (both : Parallel g g' x x') {t t' : TypeUse} (twins : g.TypeTwins g' t t') :
    x.TypeAlike x' t t' :=
  ⟨twins.suffixes, both.resembles twins.base⟩

theorem field_alike (both : Parallel g g' x x') {id id' : FieldId}
    (twins : g.FieldTwins g' id id') : x.FieldResembles x' (x.field id) (x'.field id') := by
  obtain ⟨name, suffixes, _, secret, notes⟩ := twins.alike
  rw [both.field, both.symm.field]
  exact ⟨name, suffixes, both.resembles twins.base, secret, notes⟩

theorem base_name (both : Parallel g g' x x') {base base' : TypeBase}
    (twins : g.Twins g' base base') : x.baseName base = x'.baseName base' := by
  rw [both.expands.base_name, both.expands'.base_name, twins.base_name both.names both.names']

theorem type_name (both : Parallel g g' x x') {t t' : TypeUse} (twins : g.TypeTwins g' t t') :
    x.typeName t = x'.typeName t' := by
  rw [typeName, typeName, twins.suffixes, both.base_name twins.base]

theorem definitions (both : Parallel g g' x x') : x.definitions = g.definitions :=
  both.expands.inherits.definitions

theorem errors (both : Parallel g g' x x') :
    List.Forall₂ (fun e e' => e.name = e'.name ∧ g.TypeTwins g' e.data e'.data ∧ e.notes = e'.notes)
      x.errors x'.errors := by
  have same : x.errors = g.errors := both.expands.inherits.errors
  have same' : x'.errors = g'.errors := both.expands'.inherits.errors
  rw [same, same']
  exact forall_of_mem both.alike.errors fun e member e' member' alike =>
    ⟨alike.name, Alike.error_twins member member' alike, alike.notes⟩

theorem operations (both : Parallel g g' x x') :
    List.Forall₂ (g.OperationTwins g') x.operations x'.operations := by
  have right : List.Forall₂ (fun o o' => ∃ before, before ∈ g'.operations ∧ o ∈ g.operations ∧
      g.OperationAlike g' o before ∧
        o' = { before with members := [], args := before.args ++ x'.gather before.members [] })
      g.operations x'.operations :=
    forall_trans (forall_of_mem both.alike.operations fun o member before member' alike =>
      And.intro member (And.intro member' alike)) both.gathers'.operations
        fun o before o' ⟨member, member', alike⟩ made => ⟨before, member', member, alike, made⟩
  refine forall_trans both.gathers.operations.flip right ?_
  rintro _ o _ rfl ⟨before, member', member, alike, rfl⟩
  have returns := Alike.result_twins member member' alike
  refine ⟨alike.name, rfl, rfl, ?_, returns, alike.notes⟩
  refine List.rel_append (Alike.args_twins member member' alike)
    (both.gather (Alike.member_twins member member' alike) ?_ ?_ .nil)
  · exact both.gathers.aimed _ (.operation member)
  · exact fun u u' _ twins => both.fields twins

theorem expanded (both : Parallel g g' x x') : x.Alike x' := by
  have definitions := both.definitions
  have definitions' := both.symm.definitions
  have definition : ∀ d ∈ g.definitions, ∀ d' ∈ g'.definitions, g.DefinitionAlike g' d d' →
      x.DefinitionAlike x' d d' := fun d member d' member' alike =>
    ⟨alike.name, both.type_alike (Alike.definition_twins member member' alike)⟩
  constructor
  · rw [definitions, definitions', both.alike.count]
  · rw [both.expands.nesting_bound, both.expands'.nesting_bound, both.alike.bound]
  · rw [definitions, definitions']
    intro d member
    obtain ⟨d', member', alike, notes⟩ := both.alike.left d member
    exact ⟨d', member', definition d member d' member' alike, notes⟩
  · rw [definitions, definitions']
    intro d' member'
    obtain ⟨d, member, alike, notes⟩ := both.alike.right d' member'
    exact ⟨d, member, definition d member d' member' alike, notes⟩
  · intro name
    rw [definition_congr definitions, definition_congr definitions']
    have first := both.alike.first name
    cases defined : g.definition? name with
    | none =>
      rw [none_of_rel first defined]
      exact .none
    | some d =>
      obtain ⟨d', defined', alike⟩ := exists_of_rel first defined
      rw [defined']
      exact .some (definition d (List.mem_of_find?_eq_some defined) d'
        (List.mem_of_find?_eq_some defined') alike)
  · exact both.errors.imp fun e e' ⟨name, data, notes⟩ => ⟨name, both.type_alike data, notes⟩
  · refine both.operations.imp fun o o' twins => ⟨twins.name, ?_, ?_, both.type_alike twins.returns, twins.notes⟩
    · rw [twins.members, twins.members']
      exact .nil
    · exact twins.args.imp fun id id' field => both.field_alike field

theorem known (both : Parallel g g' x x') {base : TypeBase} (known : x.Known base) :
    ∃ base', x'.Known base' ∧ g.Twins g' base base' := by
  refine known.induction (motive := fun base => ∃ base', x'.Known base' ∧ g.Twins g' base base') ?_ ?_
  · intro base declared
    cases declared with
    | definition member =>
      rw [both.definitions] at member
      obtain ⟨d', member', alike, _⟩ := both.alike.left _ member
      rw [← both.symm.definitions] at member'
      exact ⟨_, known_of_declares (.definition member'),
        (Alike.definition_twins member (both.symm.definitions ▸ member') alike).base⟩
    | error member =>
      obtain ⟨_, member', _, twins, _⟩ := exists_right both.errors member
      exact ⟨_, known_of_declares (.error member'), twins.base⟩
    | argument member held =>
      obtain ⟨_, member', twins⟩ := exists_right both.operations member
      rw [twins.members] at held
      rcases held with none | held
      · cases none
      · obtain ⟨id', held', field⟩ := exists_right twins.args held
        have known' : x'.Known (x'.field id').type.base :=
          known_of_declares (.argument member' (.inr held'))
        rw [both.symm.field] at known'
        rw [both.field]
        exact ⟨_, known', field.base⟩
    | spread member held =>
      obtain ⟨_, _, twins⟩ := exists_right both.operations member
      rw [twins.members] at held
      cases held
    | returns member =>
      obtain ⟨_, member', twins⟩ := exists_right both.operations member
      exact ⟨_, known_of_declares (.returns member'), twins.returns.base⟩
  · rintro base next ⟨base', known', twins⟩ leads
    cases leads with
    | reference defined =>
      obtain ⟨_, rfl⟩ := twins.alike.reference
      rw [definition_congr both.definitions] at defined
      obtain ⟨d', defined', alike⟩ := exists_of_rel (both.alike.first _) defined
      have leads' := defined'
      rw [← definition_congr both.symm.definitions] at leads'
      refine ⟨_, known'.reaches (.single (.reference leads')), ?_⟩
      exact (Alike.definition_twins (List.mem_of_find?_eq_some defined)
        (List.mem_of_find?_eq_some defined') alike).base
    | field held =>
      obtain ⟨t', rfl, _⟩ := twins.alike.struct
      rcases held with written | held
      · rw [(both.gathers.structs _ (twins.known trivial)).1] at written
        cases written
      · obtain ⟨id', held', field⟩ := exists_right (both.fields twins) held
        have known'' := known'.reaches (.single (.field (.inr held')))
        rw [both.symm.field] at known''
        rw [both.field]
        exact ⟨_, known'', field.base⟩
    | spread member =>
      rw [(both.gathers.structs _ (twins.known trivial)).1] at member
      cases member
    | value member data =>
      rw [both.enum] at member
      obtain ⟨e', rfl, _⟩ := twins.alike.enum
      obtain ⟨v', member', value⟩ := exists_right twins.values member
      obtain ⟨t', data', twins'⟩ := exists_of_rel value.data data
      rw [← both.symm.enum] at member'
      exact ⟨_, known'.reaches (.single (.value member' data')), twins'⟩

end Parallel

end ApiSchema.Schema
