import ApiSchema.Proofs.Analysis.Descent
import Mathlib.Data.List.Chain

/-! What the expansion of spreads makes of a schema: every struct behind a declaration has its own
fields and those that its spreads bring, whatever the order in which structs are entered. It fails
for a spread of no struct, or where a struct would have to be expanded inside of itself. -/

namespace ApiSchema

namespace Schema

def written (s : Schema) : List Member :=
  s.structs.toList.flatMap (·.members) ++ s.operations.flatMap (·.members)

def fieldsOf (s : Schema) (name : String) : List FieldId :=
  match s.resolve name with
  | .ok ⟨[], .struct u⟩ =>
    (s.struct u).members.filterMap (fun m => match m with
      | .field id => some id
      | .spread .. => none) ++ (s.struct u).fields
  | _ => []

def brought (s : Schema) : List FieldId :=
  s.written.flatMap fun m => match m with
    | .field _ => []
    | .spread name .. => s.fieldsOf name

def gather (s : Schema) : List Member → List FieldId → List FieldId
  | [], ids => ids
  | .field id :: rest, ids => gather s rest (Spreading.addField s id ids)
  | .spread name .. :: rest, ids =>
    gather s rest ((s.fieldsOf name).foldl (fun ids id => Spreading.addField s id ids) ids)

/-- Members of which one is a spread of the struct. -/
def Spreads (s : Schema) (members : List Member) (u : StructId) : Prop :=
  ∃ name nameLocation location, .spread name nameLocation location ∈ members ∧
    s.resolve name = .ok ⟨[], .struct u⟩

/-- A struct is expanded before another one, which spreads it or has it in a field. -/
def Absorbs (s : Schema) (t u : StructId) : Prop :=
  s.Spreads (s.struct t).members u ∨ ∃ id, s.Holds t id ∧ s.Enters (s.field id).type.base u

/-- The members of a struct behind a declaration, or of an operation. -/
inductive Writes (s : Schema) : List Member → Prop where
  | struct {t} (known : s.Known (.struct t)) : Writes s (s.struct t).members
  | operation {o} (member : o ∈ s.operations) : Writes s o.members

def Aimed (s : Schema) (members : List Member) : Prop :=
  ∀ name nameLocation location, .spread name nameLocation location ∈ members →
    ∃ u, s.resolve name = .ok ⟨[], .struct u⟩

/-- A schema in which all structs of another one behind its declarations have the fields that their
members stand for. -/
structure Gathers (s s' : Schema) : Prop where
  structs : ∀ t, s.Known (.struct t) → (s'.struct t).members = [] ∧
    (s'.struct t).fields = (s.struct t).fields ++ s'.gather (s.struct t).members []
  operations : List.Forall₂
    (fun o o' => o' = { o with members := [], args := o.args ++ s'.gather o.members [] })
    s.operations s'.operations
  aimed : ∀ members, s.Writes members → s.Aimed members
  founded : ∀ t, s.Known (.struct t) → Acc (fun u t => s.Spreads (s.struct t).members u) t

variable {s : Schema}

theorem written_of_struct (t : StructId) : (s.struct t).members ⊆ s.written := by
  by_cases inside : t < s.structs.size
  · intro m member
    exact List.mem_append_left _ (List.mem_flatMap.mpr ⟨_, struct_mem inside, member⟩)
  · rw [struct_of_size_le (Nat.le_of_not_lt inside)]
    exact List.nil_subset _

theorem written_of_operation {o : Operation} (member : o ∈ s.operations) :
    o.members ⊆ s.written :=
  fun _ held => List.mem_append_right _ (List.mem_flatMap.mpr ⟨o, member, held⟩)

theorem Writes.written {members : List Member} (writes : s.Writes members) :
    members ⊆ s.written := by
  cases writes with
  | struct => exact written_of_struct _
  | operation member => exact written_of_operation member

theorem mem_brought {name : String} {nameLocation location : Location} {u : StructId} {id : FieldId}
    (listed : .spread name nameLocation location ∈ s.written)
    (resolved : s.resolve name = .ok ⟨[], .struct u⟩) (held : s.Holds u id) : id ∈ s.brought := by
  refine List.mem_flatMap.mpr ⟨_, listed, ?_⟩
  simp only [fieldsOf, resolved, List.mem_append, List.mem_filterMap]
  exact held.imp_left fun member => ⟨_, member, rfl⟩

theorem fields_of_expanded {name : String} {u : StructId}
    (resolved : s.resolve name = .ok ⟨[], .struct u⟩) (none : (s.struct u).members = []) :
    s.fieldsOf name = (s.struct u).fields := by
  simp only [fieldsOf, resolved, none, List.filterMap_nil, List.nil_append]

theorem Writes.spreads_known {members : List Member} (writes : s.Writes members) {u : StructId}
    (spreads : s.Spreads members u) : s.Known (.struct u) := by
  obtain ⟨name, nameLocation, location, member, resolved⟩ := spreads
  have named : s.Known (.reference name nameLocation) := by
    cases writes with
    | struct known => exact known.reaches (.single (.spread member))
    | operation listed => exact known_of_declares (.spread listed member)
  exact named.reaches (resolve_reaches resolved nameLocation)

theorem add_field_congr {s' : Schema} (field : ∀ id, s'.field id = s.field id) (id : FieldId)
    (ids : List FieldId) : Spreading.addField s' id ids = Spreading.addField s id ids := by
  induction ids with
  | nil => rfl
  | cons other rest ih => simp only [Spreading.addField, field, ih]

theorem gather_congr {s' : Schema} (field : ∀ id, s'.field id = s.field id) {members : List Member} :
    (∀ name nameLocation location, .spread name nameLocation location ∈ members →
      s'.fieldsOf name = s.fieldsOf name) →
      ∀ ids, s'.gather members ids = s.gather members ids := by
  have add := add_field_congr field
  induction members with
  | nil => exact fun _ _ => rfl
  | cons m rest ih =>
    intro same ids
    have later := ih fun name nameLocation location member =>
      same name nameLocation location (List.mem_cons_of_mem _ member)
    cases m with
    | field id => simp only [gather, add, later]
    | spread name nameLocation location =>
      simp only [gather, add, later, same name nameLocation location (List.mem_cons_self ..)]

theorem mem_gather {members : List Member} {id : FieldId} :
    ∀ {ids}, id ∈ s.gather members ids → id ∈ ids ∨ .field id ∈ members ∨
      ∃ name nameLocation location, .spread name nameLocation location ∈ members ∧
        id ∈ s.fieldsOf name := by
  induction members with
  | nil => exact .inl
  | cons m rest ih =>
    intro ids member
    cases m with
    | field other =>
      rcases ih member with old | own | ⟨name, nameLocation, location, listed, held⟩
      · rcases Spreading.mem_addField old with rfl | old
        · exact .inr (.inl (List.mem_cons_self ..))
        · exact .inl old
      · exact .inr (.inl (List.mem_cons_of_mem _ own))
      · exact .inr (.inr ⟨name, nameLocation, location, List.mem_cons_of_mem _ listed, held⟩)
    | spread name nameLocation location =>
      rcases ih member with old | own | ⟨name, nameLocation, location, listed, held⟩
      · rcases Spreading.mem_addFields old with brought | old
        · exact .inr (.inr ⟨name, nameLocation, location, List.mem_cons_self .., brought⟩)
        · exact .inl old
      · exact .inr (.inl (List.mem_cons_of_mem _ own))
      · exact .inr (.inr ⟨name, nameLocation, location, List.mem_cons_of_mem _ listed, held⟩)

end Schema

namespace Spreading

open Schema

variable {s : Schema} {p q r : Spreading}

/-- Why the pass fails: a struct absorbs itself, or a spread stands for no struct. -/
inductive Fault (s : Schema) : AnalysisFailure → Prop where
  | endless : Fault s .endless
  | cyclic {name location t} (known : s.Known (.struct t)) (cycle : Relation.TransGen s.Absorbs t t) :
    Fault s (.semantic (.cyclicSpread name location))
  | astray {fault members} (writes : s.Writes members) (astray : ¬ s.Aimed members) :
    Fault s (.semantic fault)

def Provided (s : Schema) (members : List Member) (p : Spreading) : Prop :=
  ∀ name nameLocation location, .spread name nameLocation location ∈ members →
    ∃ u, s.resolve name = .ok ⟨[], .struct u⟩ ∧ Done p u

def EnteredFields (s : Schema) (members : List Member) (ids : List FieldId) (p : Spreading) : Prop :=
  ∀ id, .field id ∈ members ∨ id ∈ ids → Entered s (s.field id).type.base p

/-- A struct that has given up its members for the fields that they stand for. -/
structure Expanded (s : Schema) (p : Spreading) (t : StructId) : Prop where
  members : (p.schema.struct t).members = []
  fields : (p.schema.struct t).fields =
    (s.struct t).fields ++ p.schema.gather (s.struct t).members []
  entered : EnteredFields s (s.struct t).members (s.struct t).fields p
  provided : Provided s (s.struct t).members p
  founded : Acc (fun u t => s.Spreads (s.struct t).members u) t

/-- The state of a pass over `s`: what is not done is as it was, what is done is expanded, and of the
structs that go on each has been entered for the one before. -/
structure Steady (s : Schema) (p : Spreading) : Prop where
  fields : p.schema.fields = s.fields
  enums : p.schema.enums = s.enums
  definitions : p.schema.definitions = s.definitions
  errors : p.schema.errors = s.errors
  operations : p.schema.operations = s.operations
  ongoing : p.ongoing ⊆ p.begun
  chain : p.ongoing.IsChain fun inner outer => s.Absorbs outer inner
  unchanged : ∀ t, ¬ Done p t → p.schema.struct t = s.struct t
  expanded : ∀ t, Done p t → Expanded s p t

/-- The base may be entered: it lies behind a declaration, and the struct that goes on absorbs what
is entered with it. -/
structure Enterable (s : Schema) (p : Spreading) (base : TypeBase) : Prop where
  known : s.Known base
  absorbs : ∀ outer ∈ p.ongoing.head?, ∀ t, s.Enters base t → s.Absorbs outer t

theorem Provided.later {members : List Member} (provided : Provided s members p)
    (keeps : Keeps p q) : Provided s members q := by
  intro name nameLocation location member
  obtain ⟨u, resolved, done⟩ := provided name nameLocation location member
  exact ⟨u, resolved, (keeps.done u done).1⟩

theorem EnteredFields.later {members : List Member} {ids : List FieldId}
    (entered : EnteredFields s members ids p) (begun : p.begun ⊆ q.begun) :
    EnteredFields s members ids q :=
  fun id held t enters => begun (entered id held t enters)

theorem Keeps.fields_of (keeps : Keeps p q) {name : String} {u : StructId}
    (resolved : p.schema.resolve name = .ok ⟨[], .struct u⟩) (done : Done p u) :
    q.schema.fieldsOf name = p.schema.fieldsOf name := by
  simp only [fieldsOf, resolve_congr keeps.definitions, resolved, (keeps.done u done).2]

theorem Keeps.gather (keeps : Keeps p q) (same : p.schema.definitions = s.definitions)
    {members : List Member} (provided : Provided s members p) (ids : List FieldId) :
    q.schema.gather members ids = p.schema.gather members ids := by
  refine gather_congr keeps.field ?_ ids
  intro name nameLocation location member
  obtain ⟨u, resolved, done⟩ := provided name nameLocation location member
  exact keeps.fields_of ((resolve_congr same name).trans resolved) done

theorem Expanded.later {t : StructId} (expanded : Expanded s p t)
    (same : p.schema.definitions = s.definitions) (keeps : Keeps p q) (begun : p.begun ⊆ q.begun)
    (done : Done p t) : Expanded s q t where
  members := by rw [(keeps.done t done).2, expanded.members]
  fields := by rw [(keeps.done t done).2, expanded.fields, keeps.gather same expanded.provided]
  entered := expanded.entered.later begun
  provided := expanded.provided.later keeps
  founded := expanded.founded

theorem steady_course (s : Schema) : Course s (Steady s) (Enterable s) (Fault s) where
  start := ⟨rfl, rfl, rfl, rfl, rfl, fun _ => id, .nil, fun _ _ => rfl, fun _ done => by cases done.1⟩
  fields := Steady.fields
  enums := Steady.enums
  definitions := Steady.definitions
  operations := Steady.operations
  later ready goes := ⟨ready.known, goes.ongoing ▸ ready.absorbs⟩
  value ready member data := by
    refine ⟨ready.known.reaches (.single (.value member data)), fun outer going u enters => ?_⟩
    cases enters
    exact ready.absorbs outer going _ (.value member data)
  declares declared idle := ⟨known_of_declares declared, by simp [idle]⟩
  endless := .endless

/-- The struct that goes on has been entered, in the end, for each of those around it. -/
theorem absorbs_chain {outer : StructId} {ongoing : List StructId}
    (chain : (outer :: ongoing).IsChain fun inner outer => s.Absorbs outer inner) {t : StructId}
    (going : t ∈ outer :: ongoing) : Relation.ReflTransGen s.Absorbs t outer := by
  induction ongoing generalizing outer with
  | nil =>
    cases List.mem_singleton.mp going
    exact .refl
  | cons next rest ih =>
    obtain ⟨first, chain⟩ := List.isChain_cons_cons.mp chain
    rcases List.mem_cons.mp going with rfl | later
    · exact .refl
    · exact (ih chain later).tail first

/-- A spread of a struct that goes on makes it absorb itself. -/
theorem fault_of_misses {members : List Member} {name : String} {nameLocation location : Location}
    {e : AnalysisFailure} (steady : Steady s p) (writes : s.Writes members)
    (member : .spread name nameLocation location ∈ members)
    (absorbs : ∀ outer ∈ p.ongoing.head?, ∀ u, s.Spreads members u → s.Absorbs outer u)
    (misses : Misses name location p e) : Fault s e := by
  cases misses with
  | @cyclic t resolved going =>
    rw [resolve_congr steady.definitions] at resolved
    have chain := steady.chain
    cases ongoing : p.ongoing with
    | nil =>
      rw [ongoing] at going
      cases going
    | cons outer rest =>
      rw [ongoing] at going chain
      have spreads : s.Spreads members t := ⟨_, _, _, member, resolved⟩
      have last := absorbs outer (by simp [ongoing]) t spreads
      exact .cyclic (writes.spreads_known spreads) (.tail' (absorbs_chain chain going) last)
  | nowhere none =>
    refine .astray writes fun aimed => ?_
    obtain ⟨u, resolved⟩ := aimed name nameLocation location member
    exact none u ((resolve_congr steady.definitions name).trans resolved)

variable {descend : TypeBase → SpreadingPass Unit}

theorem expand_members_steady (serves : Serves s (Steady s) (Enterable s) (Fault s) descend)
    {all : List Member} (writes : s.Writes all) :
    ∀ {members : List Member} {ids : List FieldId} {p : Spreading}, Steady s p →
      (∀ outer ∈ p.ongoing.head?, ∀ u, s.Spreads all u → s.Absorbs outer u) → members ⊆ all →
      Within (expandMembers descend members ids) p (Fault s) fun added q =>
        Steady s q ∧ Goes p q ∧ added = q.schema.gather members ids ∧ Provided s members q := by
  intro members
  induction members with
  | nil => exact fun steady _ _ => Within.pure ⟨steady, .refl _, rfl, nofun⟩
  | cons m rest ih =>
    intro ids p steady absorbs listed
    obtain ⟨here, below⟩ := List.cons_subset.mp listed
    cases m with
    | field id =>
      apply Within.bind
      apply Within.get
      apply (ih steady absorbs below).mono
      rintro added q ⟨steady', goes, rfl, provided⟩
      refine ⟨steady', goes, ?_, ?_⟩
      · rw [gather, add_field_congr goes.keeps.field]
      · intro name nameLocation location member
        rcases List.mem_cons.mp member with same | later
        · cases same
        · exact provided name nameLocation location later
    | spread name nameLocation location =>
      apply Within.bind
      apply ((target_within name location p).weaken fun e =>
        fault_of_misses steady writes here absorbs).mono
      rintro u p' ⟨rfl, found, finished⟩
      have resolved := (resolve_congr steady.definitions name).symm.trans found
      have spreads : s.Spreads all u := ⟨_, _, _, here, resolved⟩
      apply Within.bind
      apply (serves (.struct u) _ steady ⟨writes.spreads_known spreads, ?_⟩).mono
      · rintro _ q ⟨steady', goes, begun⟩
        have done : Done q u := ⟨begun u .struct, goes.ongoing ▸ finished⟩
        apply Within.bind
        apply Within.get
        apply (ih steady' (goes.ongoing ▸ absorbs) below).mono
        rintro added r ⟨steady'', goes', rfl, provided⟩
        have done' := goes'.keeps.done u done
        refine ⟨steady'', goes.trans goes', ?_, ?_⟩
        · have there := (resolve_congr steady''.definitions name).trans resolved
          rw [gather, fields_of_expanded there (steady''.expanded u done'.1).members, done'.2]
          simp only [add_field_congr goes'.keeps.field]
        · intro other otherLocation location' member
          rcases List.mem_cons.mp member with same | later
          · cases same
            exact ⟨u, resolved, done'.1⟩
          · exact provided other otherLocation location' later
      · intro outer going t enters
        cases enters
        exact absorbs outer going u spreads

theorem steady_begin (steady : Steady s p) {t : StructId} (fresh : t ∉ p.begun)
    (ready : Enterable s p (.struct t)) : Steady s ⟨p.schema, t :: p.begun, t :: p.ongoing⟩ where
  fields := steady.fields
  enums := steady.enums
  definitions := steady.definitions
  errors := steady.errors
  operations := steady.operations
  ongoing := List.cons_subset_cons t steady.ongoing
  chain := by
    refine List.isChain_cons.mpr ⟨fun outer going => ?_, steady.chain⟩
    exact ready.absorbs outer going t .struct
  unchanged u waiting := steady.unchanged u fun done => waiting ((done_begin fresh u).mpr done)
  expanded u done := by
    have earlier := (done_begin fresh u).mp done
    exact (steady.expanded u earlier).later steady.definitions (keeps_begin fresh)
      (List.subset_cons_self ..) earlier

section Close

variable {t : StructId} {ongoing : List StructId} {ids : List FieldId}

theorem close_struct (ids : List FieldId) (inside : t < q.schema.structs.size) :
    (close q t ids ongoing).schema.struct t = { q.schema.struct t with members := [], fields := ids } := by
  simp [close, struct_setStruct, inside]

theorem expanded_close (steady : Steady s q) (begun : t ∈ q.begun) (going : q.ongoing = t :: ongoing)
    (distinct : t ∉ ongoing) (same : q.schema.struct t = s.struct t)
    (gathered : ids = (s.struct t).fields ++ q.schema.gather (s.struct t).members [])
    (entered : EnteredFields s (s.struct t).members (s.struct t).fields q)
    (provided : Provided s (s.struct t).members q) : Expanded s (close q t ids ongoing) t := by
  have keeps : Keeps q (close q t ids ongoing) := keeps_close begun going distinct
  have founded : Acc (fun u t => s.Spreads (s.struct t).members u) t := by
    refine .intro t fun u ⟨name, nameLocation, location, member, resolved⟩ => ?_
    obtain ⟨v, again, done⟩ := provided name nameLocation location member
    cases resolved.symm.trans again
    exact (steady.expanded u done).founded
  have further := keeps.gather steady.definitions provided []
  by_cases inside : t < q.schema.structs.size
  · have here : (close q t ids ongoing).schema.struct t = _ := close_struct ids inside
    exact ⟨by rw [here], by rw [here, further, gathered], entered, provided.later keeps, founded⟩
  · have empty : (close q t ids ongoing).schema.struct t = default := by
      simp [close, struct_setStruct, inside, struct_of_size_le (Nat.le_of_not_lt inside)]
    have none : s.struct t = default := by
      rw [← same, struct_of_size_le (Nat.le_of_not_lt inside)]
    refine ⟨by rw [empty]; rfl, ?_, entered, provided.later keeps, founded⟩
    rw [empty, none]
    rfl

theorem steady_close (steady : Steady s q) (begun : t ∈ q.begun) (going : q.ongoing = t :: ongoing)
    (distinct : t ∉ ongoing)
    (gathered : ids = (s.struct t).fields ++ q.schema.gather (s.struct t).members [])
    (entered : EnteredFields s (s.struct t).members (s.struct t).fields q)
    (provided : Provided s (s.struct t).members q) : Steady s (close q t ids ongoing) where
  fields := steady.fields
  enums := steady.enums
  definitions := steady.definitions
  errors := steady.errors
  operations := steady.operations
  ongoing u member := steady.ongoing (going ▸ List.mem_cons_of_mem _ member)
  chain := (going ▸ steady.chain).tail
  unchanged u waiting := by
    rw [done_close begun going distinct, not_or] at waiting
    simpa [close, struct_setStruct, waiting.1] using steady.unchanged u waiting.2
  expanded u done := by
    rcases (done_close begun going distinct u).mp done with rfl | earlier
    · refine expanded_close steady begun going distinct ?_ gathered entered provided
      exact steady.unchanged u fun done => done.2 (going ▸ List.mem_cons_self ..)
    · exact (steady.expanded u earlier).later steady.definitions (keeps_close begun going distinct)
        (fun _ => id) earlier

end Close

theorem expand_struct_steady (s : Schema) : Course.Keeping s (Steady s) (Enterable s) (Fault s) := by
  intro descend t p serves steady fresh ready
  have finished : t ∉ p.ongoing := fun going => fresh (steady.ongoing going)
  apply (steady_course s).expand_struct serves fresh finished
    (steady.unchanged t fun done => fresh done.1) (steady_begin steady fresh ready)
  · intro id held
    refine ⟨ready.known.reaches (.single (.field held)), fun outer going u enters => ?_⟩
    cases Option.some.inj going
    exact .inr ⟨id, held, enters⟩
  · intro q steady' goes entered
    apply (expand_members_steady serves (.struct ready.known) steady' ?_ (List.Subset.refl _)).mono
    · rintro added r ⟨steady'', goes', rfl, provided⟩
      have further := goes.trans goes'
      refine ⟨goes', steady_close steady'' (further.begun (List.mem_cons_self ..)) further.ongoing
        finished rfl (EnteredFields.later entered goes'.begun) provided⟩
    · rw [goes.ongoing]
      intro outer going u spreads
      cases Option.some.inj going
      exact .inl spreads

structure OperationExpanded (s : Schema) (o o' : Operation) (p : Spreading) : Prop where
  same : o' = { o with members := [], args := o.args ++ p.schema.gather o.members [] }
  entered : EnteredFields s o.members o.args p
  provided : Provided s o.members p
  result : Entered s o.returns.base p
  definitions : p.schema.definitions = s.definitions

theorem OperationExpanded.later {o o' : Operation} (expanded : OperationExpanded s o o' p)
    (goes : Goes p q) : OperationExpanded s o o' q where
  same := by
    rw [goes.keeps.gather expanded.definitions expanded.provided]
    exact expanded.same
  entered := expanded.entered.later goes.begun
  provided := expanded.provided.later goes.keeps
  result := expanded.result.later goes
  definitions := goes.keeps.definitions.trans expanded.definitions

theorem expand_all_steady (s : Schema) :
    Within expandAll ⟨s, [], []⟩ (Fault s) fun _ q => ∃ r operations,
      Course.Ended s (Steady s) (OperationExpanded s) operations r ∧
        q.schema = { r.schema with operations } := by
  apply (steady_course s).expand_all (expand_struct_steady s)
  · exact fun o o' q r goes expanded => expanded.later goes
  · intro o member p steady idle
    apply (steady_course s).expand_operation (expand_struct_steady s) steady idle member
    intro descend q serves steady goes entered returns
    apply (expand_members_steady serves (.operation member) steady ?_ (List.Subset.refl _)).mono
    · rintro added r ⟨steady', goes', rfl, provided⟩
      exact ⟨steady', goes', rfl, EnteredFields.later entered goes'.begun, provided, returns.later goes',
        steady'.definitions⟩
    · simp [goes.ongoing, idle]

variable {operations : List Operation}

/-- What lies behind a declaration has been entered in the end. -/
theorem entered_of_known (ended : Course.Ended s (Steady s) (OperationExpanded s) operations p)
    {base : TypeBase} (known : s.Known base) : Entered s base p := by
  have declared : ∀ base, s.Declares base → Entered s base p := by
    intro base declares
    cases declares with
    | definition member => exact ended.definitions _ member
    | error member => exact ended.errors _ member
    | argument member held =>
      obtain ⟨_, _, expanded⟩ := exists_right ended.operations member
      exact expanded.entered _ held
    | spread member held =>
      intro t enters
      cases enters
    | returns member =>
      obtain ⟨_, _, expanded⟩ := exists_right ended.operations member
      exact expanded.result
  have leads : ∀ first next, Entered s first p → s.Leads first next → Entered s next p := by
    intro first next entered leads
    cases leads with
    | reference defined => exact ended.definitions _ (List.mem_of_find?_eq_some defined)
    | field held => exact (ended.held.expanded _ (entered.done ended.idle .struct)).entered _ held
    | spread member =>
      intro t enters
      cases enters
    | value member data =>
      intro u enters
      cases enters
      exact entered _ (.value member data)
  exact known.induction declared leads

theorem gathers_of_ended (ended : Course.Ended s (Steady s) (OperationExpanded s) operations p) :
    s.Gathers { p.schema with operations } := by
  have gather : ∀ members ids, Schema.gather { p.schema with operations } members ids =
      p.schema.gather members ids := by
    intro members ids
    refine gather_congr ?_ ?_ ids
    · exact fun _ => rfl
    · exact fun _ _ _ _ => rfl
  have expanded : ∀ t, s.Known (.struct t) → Expanded s p t := fun t known =>
    ended.held.expanded t ((entered_of_known ended known).done ended.idle .struct)
  have aimed : ∀ {members}, Provided s members p → s.Aimed members := by
    intro members provided name nameLocation location member
    obtain ⟨u, resolved, _⟩ := provided name nameLocation location member
    exact ⟨u, resolved⟩
  constructor
  · intro t known
    rw [gather]
    exact ⟨(expanded t known).members, (expanded t known).fields⟩
  · simp only [gather]
    exact ended.operations.imp fun o o' expanded => expanded.same
  · intro members writes
    cases writes with
    | struct known => exact aimed (expanded _ known).provided
    | operation member =>
      obtain ⟨_, _, expanded⟩ := exists_right ended.operations member
      exact aimed expanded.provided
  · exact fun t known => (expanded t known).founded

end Spreading

namespace Schema

theorem gathers_of_expanded {s s' : Schema} (expanded : s.expandSpreads = .ok s') : s.Gathers s' := by
  refine Spreading.of_expand_spreads ((Spreading.expand_all_steady s).mono ?_) expanded
  rintro _ q ⟨r, operations, ended, result⟩
  rw [result]
  exact Spreading.gathers_of_ended ended

theorem expand_spreads_fault {s : Schema} {e : AnalysisFailure}
    (failed : s.expandSpreads = .error e) : Spreading.Fault s e := by
  have run := Spreading.expand_all_steady s
  cases ran : Spreading.expandAll.run ⟨s, [], []⟩ with
  | error other =>
    simp only [expandSpreads, ran] at failed
    cases failed
    exact run.of_error ran
  | ok r => simp only [expandSpreads, ran] at failed; cases failed

structure Spread (s : Schema) : Prop where
  structs : ∀ t, s.Known (.struct t) → (s.struct t).members = []
  operations : ∀ o ∈ s.operations, o.members = []

/-- A schema without members, in which each field was held before or has been brought by a spread. -/
structure Gains (s s' : Schema) : Prop where
  spread : s'.Spread
  structs : ∀ t id, s'.Known (.struct t) → s'.Holds t id → s.Holds t id ∨ id ∈ s.brought
  operations : ∀ o' ∈ s'.operations, ∃ o ∈ s.operations,
    o'.name = o.name ∧ o'.returns = o.returns ∧ ∀ id,
      .field id ∈ o'.members ∨ id ∈ o'.args → (.field id ∈ o.members ∨ id ∈ o.args) ∨ id ∈ s.brought

theorem spread_of_expanded {s s' : Schema} (expanded : s.expandSpreads = .ok s') : s'.Spread := by
  have gathers := gathers_of_expanded expanded
  refine ⟨fun t known => (gathers.structs t ((expands_of_ok expanded).known known)).1, ?_⟩
  intro o member
  obtain ⟨_, _, same⟩ := exists_left gathers.operations member
  rw [same]

namespace Gathers

variable {s s' : Schema} {members : List Member}

theorem mem_gather (gathers : s.Gathers s') (same : s'.definitions = s.definitions)
    (writes : s.Writes members) {id : FieldId} (member : id ∈ s'.gather members []) :
    .field id ∈ members ∨ ∃ u, s.Spreads members u ∧ id ∈ (s'.struct u).fields := by
  rcases Schema.mem_gather member with none | own | ⟨name, nameLocation, location, listed, brought⟩
  · cases none
  · exact .inl own
  · obtain ⟨u, resolved⟩ := gathers.aimed members writes name nameLocation location listed
    have spreads : s.Spreads members u := ⟨name, nameLocation, location, listed, resolved⟩
    have there := (resolve_congr same name).trans resolved
    rw [fields_of_expanded there (gathers.structs u (writes.spreads_known spreads)).1] at brought
    exact .inr ⟨u, spreads, brought⟩

theorem mem_fields (gathers : s.Gathers s') (same : s'.definitions = s.definitions) {t : StructId}
    (known : s.Known (.struct t)) {id : FieldId} (member : id ∈ (s'.struct t).fields) :
    s.Holds t id ∨ ∃ u, s.Spreads (s.struct t).members u ∧ id ∈ (s'.struct u).fields := by
  rw [(gathers.structs t known).2] at member
  rcases List.mem_append.mp member with held | gathered
  · exact .inl (.inr held)
  · exact (gathers.mem_gather same (.struct known) gathered).imp_left .inl

theorem mem_brought (gathers : s.Gathers s') (same : s'.definitions = s.definitions)
    (writes : s.Writes members) {u : StructId} (spreads : s.Spreads members u) {id : FieldId}
    (member : id ∈ (s'.struct u).fields) : id ∈ s.brought := by
  have known := writes.spreads_known spreads
  induction gathers.founded u known generalizing members with
  | intro u _ ih =>
    rcases gathers.mem_fields same known member with held | ⟨v, further, member⟩
    · obtain ⟨name, nameLocation, location, listed, resolved⟩ := spreads
      exact Schema.mem_brought (writes.written listed) resolved held
    · exact ih v further (.struct known) further member
        ((Writes.struct known).spreads_known further)

end Gathers

theorem gains_of_expanded {s s' : Schema} (expanded : s.expandSpreads = .ok s') : s.Gains s' := by
  have expands := expands_of_ok expanded
  have gathers := gathers_of_expanded expanded
  have same : s'.definitions = s.definitions := expands.inherits.definitions
  have spread := spread_of_expanded expanded
  refine ⟨spread, ?_, ?_⟩
  · rintro t id known (written | member)
    · rw [spread.structs t known] at written
      cases written
    · have known := expands.known known
      refine (gathers.mem_fields same known member).imp_right fun ⟨u, spreads, brought⟩ => ?_
      exact gathers.mem_brought same (.struct known) spreads brought
  · intro o' member
    obtain ⟨o, declared, rfl⟩ := exists_left gathers.operations member
    refine ⟨o, declared, rfl, rfl, ?_⟩
    rintro id (written | member)
    · cases written
    · rcases List.mem_append.mp member with held | gathered
      · exact .inl (.inr held)
      · refine (gathers.mem_gather same (.operation declared) gathered).imp .inl ?_
        exact fun ⟨u, spreads, brought⟩ => gathers.mem_brought same (.operation declared) spreads brought

end Schema

namespace Spreading

open Schema

variable {s : Schema} {p : Spreading} {descend : TypeBase → SpreadingPass Unit}

structure Resting (s : Schema) (p : Spreading) : Prop where
  schema : p.schema = s

abbrev Rests (s : Schema) (m : SpreadingPass Unit) (p : Spreading) : Prop :=
  Within m p (· = .endless) fun _ q => Resting s q

theorem visit_fields_rest {ids : List FieldId}
    (below : ∀ id ∈ ids, ∀ p, Resting s p → Rests s (descend (s.field id).type.base) p)
    (resting : Resting s p) : Rests s (ids.forM (visitField descend)) p := by
  apply Within.forM resting
  intro id member q resting
  apply Within.bind
  apply Within.get
  rw [resting.schema]
  exact below id member q resting

theorem expand_struct_rests {t : StructId} (none : (s.struct t).members = [])
    (below : ∀ id ∈ (s.struct t).fields, ∀ p, Resting s p →
      Rests s (descend (s.field id).type.base) p)
    (resting : Resting s p) : Rests s (expandStruct descend t) p := by
  apply Within.bind
  apply Within.modify
  apply Within.bind
  apply Within.get
  dsimp only
  rw [resting.schema, none]
  apply Within.bind
  apply Within.pure
  apply Within.bind
  apply (visit_fields_rest below ⟨rfl⟩).mono
  intro _ q resting
  apply Within.bind
  apply Within.pure
  apply Within.bind
  apply Within.modify
  apply Within.modify
  dsimp only
  refine ⟨?_⟩
  rw [resting.schema, List.append_nil, ← none]
  exact s.set_struct_self t

theorem visit_base_rests (spread : s.Spread) (fuel : Nat) :
    ∀ base p, s.Known base → Resting s p → Rests s (visitBase fuel base) p := by
  induction fuel with
  | zero => exact fun _ _ _ _ => Within.throw rfl
  | succ fuel ih =>
    intro base p known resting
    cases base with
    | primitive kind => exact Within.pure resting
    | reference name location => exact Within.pure resting
    | struct t =>
      apply Within.bind
      apply Within.get
      split
      · exact Within.pure resting
      · apply expand_struct_rests (spread.structs t known) _ resting
        intro id member q resting
        exact ih _ q (known.reaches (.single (.field (.inr member)))) resting
    | enum e =>
      apply Within.bind
      apply Within.get
      rw [resting.schema]
      apply Within.forM resting
      intro v member q resting
      split
      · exact Within.pure resting
      · next t data => exact ih _ q (known.reaches (.single (.value member data))) resting

theorem visit_type_rests (spread : s.Spread) {t : TypeUse} (known : s.Known t.base)
    (resting : Resting s p) : Rests s (visitType t) p := by
  apply Within.bind
  apply Within.get
  exact visit_base_rests spread _ t.base p known resting

theorem expand_operation_rests (spread : s.Spread) {o : Operation} (member : o ∈ s.operations)
    (resting : Resting s p) :
    Within (expandOperation o) p (· = .endless) fun o' q => Resting s q ∧ o' = o := by
  have none := spread.operations o member
  apply Within.bind
  apply Within.get
  rw [none]
  apply Within.bind
  apply Within.pure
  apply Within.bind
  apply (visit_fields_rest (fun id held q resting =>
    visit_base_rests spread _ _ q (known_of_declares (.argument member (.inr held))) resting) resting).mono
  intro _ q resting
  apply Within.bind
  apply (visit_type_rests spread (known_of_declares (.returns member)) resting).mono
  intro _ q resting
  apply Within.bind
  apply Within.pure
  refine Within.pure ⟨resting, ?_⟩
  rw [List.append_nil, ← none]

theorem expand_all_rests (spread : s.Spread) : Rests s expandAll ⟨s, [], []⟩ := by
  apply Within.bind
  apply Within.get
  apply Within.bind
  apply (Within.forM (Resting.mk rfl) fun e member p resting =>
    visit_type_rests spread (known_of_declares (.error member)) resting).mono
  intro _ p resting
  apply Within.bind
  apply Within.get
  rw [resting.schema]
  apply Within.bind
  apply (Within.forM resting fun d member p resting =>
    visit_type_rests spread (known_of_declares (.definition member)) resting).mono
  intro _ p resting
  apply Within.bind
  apply Within.get
  rw [resting.schema]
  apply Within.bind
  apply (Within.mapM resting fun o member p resting => expand_operation_rests spread member resting).mono
  rintro operations p ⟨resting, kept⟩
  cases (List.forall₂_eq_eq_eq ▸ kept.flip : operations = s.operations)
  apply Within.modify
  refine ⟨?_⟩
  rw [resting.schema]

end Spreading

namespace Schema

theorem expand_spreads_again {s : Schema} (spread : s.Spread) : s.expandSpreads = .ok s := by
  have run := Spreading.expand_all_rests spread
  cases ran : Spreading.expandAll.run ⟨s, [], []⟩ with
  | error e =>
    have failed : s.expandSpreads = .error e := by simp only [expandSpreads, ran]; rfl
    cases run.of_error ran
    obtain ⟨fault, other⟩ := expand_spreads_error failed
    cases other
  | ok r =>
    simp only [expandSpreads, ran]
    exact congrArg Except.ok (run.of_ok ran).schema

end Schema

end ApiSchema
