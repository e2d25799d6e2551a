import ApiSchema.Proofs.Analysis.Spreading
import ApiSchema.Proofs.Schema.Nesting

/-! The course of the expansion of spreads: what has come to its end stays as it is, and what is
entered has begun. An invariant holds throughout if the expansion of a struct keeps it. -/

namespace ApiSchema

namespace Schema

/-- Whoever enters the base enters the struct, with nothing but an enum between. -/
inductive Enters (s : Schema) : TypeBase → StructId → Prop where
  | struct {t} : Enters s (.struct t) t
  | value {e v t} (member : v ∈ (s.enum e).values) (data : v.data = some t) :
    Enters s (.enum e) t

theorem Enters.contains {s : Schema} {base : TypeBase} {t : StructId} (enters : s.Enters base t) :
    s.Contains base (.struct t) := by
  cases enters with
  | struct => exact .refl
  | value member data => exact .single (.value member data)

end Schema

namespace Spreading

open Schema

/-- The expansion of a struct has begun and come to its end. -/
def Done (p : Spreading) (t : StructId) : Prop := t ∈ p.begun ∧ t ∉ p.ongoing

/-- A later state, in which what was done is as it was. -/
structure Keeps (p q : Spreading) : Prop where
  fields : q.schema.fields = p.schema.fields
  enums : q.schema.enums = p.schema.enums
  definitions : q.schema.definitions = p.schema.definitions
  done : ∀ t, Done p t → Done q t ∧ q.schema.struct t = p.schema.struct t

/-- A later state of the pass, in which the same structs go on. -/
structure Goes (p q : Spreading) : Prop where
  keeps : Keeps p q
  begun : p.begun ⊆ q.begun
  ongoing : q.ongoing = p.ongoing

variable {s : Schema} {p q r : Spreading}

namespace Keeps

theorem refl (p : Spreading) : Keeps p p := ⟨rfl, rfl, rfl, fun _ done => ⟨done, rfl⟩⟩

theorem trans (first : Keeps p q) (second : Keeps q r) : Keeps p r where
  fields := second.fields.trans first.fields
  enums := second.enums.trans first.enums
  definitions := second.definitions.trans first.definitions
  done t done :=
    ⟨(second.done t (first.done t done).1).1,
      (second.done t (first.done t done).1).2.trans (first.done t done).2⟩

theorem field (keeps : Keeps p q) (id : FieldId) : q.schema.field id = p.schema.field id := by
  rw [Schema.field, Schema.field, keeps.fields]

theorem enum (keeps : Keeps p q) (e : EnumId) : q.schema.enum e = p.schema.enum e := by
  rw [Schema.enum, Schema.enum, keeps.enums]

end Keeps

namespace Goes

theorem refl (p : Spreading) : Goes p p := ⟨.refl p, fun _ => id, rfl⟩

theorem trans (first : Goes p q) (second : Goes q r) : Goes p r :=
  ⟨first.keeps.trans second.keeps, fun _ member => second.begun (first.begun member),
    second.ongoing.trans first.ongoing⟩

end Goes

/-- The structs that are entered with a base have begun. -/
def Entered (s : Schema) (base : TypeBase) (p : Spreading) : Prop :=
  ∀ t, s.Enters base t → t ∈ p.begun

theorem Entered.later {base : TypeBase} (entered : Entered s base p) (goes : Goes p q) :
    Entered s base q :=
  fun t enters => goes.begun (entered t enters)

theorem Entered.done {base : TypeBase} (entered : Entered s base p) (idle : p.ongoing = [])
    {t : StructId} (enters : s.Enters base t) : Done p t :=
  ⟨entered t enters, idle ▸ List.not_mem_nil⟩

section Opening

variable {t : StructId}

theorem done_begin (fresh : t ∉ p.begun) (u : StructId) :
    Done ⟨p.schema, t :: p.begun, t :: p.ongoing⟩ u ↔ Done p u := by
  simp only [Done, List.mem_cons, not_or]
  constructor
  · rintro ⟨rfl | begun, other, finished⟩
    · exact absurd rfl other
    · exact ⟨begun, finished⟩
  · rintro ⟨begun, finished⟩
    refine ⟨.inr begun, ?_, finished⟩
    rintro rfl
    exact fresh begun

theorem keeps_begin (fresh : t ∉ p.begun) :
    Keeps p ⟨p.schema, t :: p.begun, t :: p.ongoing⟩ :=
  ⟨rfl, rfl, rfl, fun u done => ⟨(done_begin fresh u).mpr done, rfl⟩⟩

end Opening

/-- The state after the last struct that was begun has been given its fields. -/
def close (q : Spreading) (t : StructId) (ids : List FieldId) (ongoing : List StructId) :
    Spreading :=
  ⟨q.schema.setStruct t { q.schema.struct t with members := [], fields := ids }, q.begun, ongoing⟩

section Close

variable {t : StructId} {ongoing : List StructId} {ids : List FieldId}

theorem done_close (begun : t ∈ q.begun) (going : q.ongoing = t :: ongoing) (distinct : t ∉ ongoing)
    (u : StructId) : Done (close q t ids ongoing) u ↔ u = t ∨ Done q u := by
  simp only [Done, close, going, List.mem_cons, not_or]
  constructor
  · rintro ⟨member, finished⟩
    by_cases same : u = t
    · exact .inl same
    · exact .inr ⟨member, same, finished⟩
  · rintro (rfl | ⟨member, _, finished⟩)
    · exact ⟨begun, distinct⟩
    · exact ⟨member, finished⟩

theorem keeps_close (begun : t ∈ q.begun) (going : q.ongoing = t :: ongoing)
    (distinct : t ∉ ongoing) : Keeps q (close q t ids ongoing) := by
  refine ⟨rfl, rfl, rfl, fun u done => ⟨(done_close begun going distinct u).mpr (.inr done), ?_⟩⟩
  have other : u ≠ t := by
    rintro rfl
    exact done.2 (going ▸ List.mem_cons_self ..)
  simp [close, struct_setStruct, other]

theorem filter_ongoing (going : q.ongoing = t :: ongoing) (distinct : t ∉ ongoing) :
    q.ongoing.filter (· != t) = ongoing := by
  rw [going, List.filter_cons_of_neg (by simp)]
  refine List.filter_eq_self.mpr fun u member => bne_iff_ne.mpr ?_
  rintro rfl
  exact distinct member

end Close

/-- An invariant of the states of the pass over a schema, with what it asks of a base before the
base is entered, and the faults that the pass may fail with. -/
structure Course (s : Schema) (holds : Spreading → Prop) (ready : Spreading → TypeBase → Prop)
    (fault : AnalysisFailure → Prop) : Prop where
  start : holds ⟨s, [], []⟩
  fields : ∀ {p}, holds p → p.schema.fields = s.fields
  enums : ∀ {p}, holds p → p.schema.enums = s.enums
  definitions : ∀ {p}, holds p → p.schema.definitions = s.definitions
  operations : ∀ {p}, holds p → p.schema.operations = s.operations
  later : ∀ {p q base}, ready p base → Goes p q → ready q base
  value : ∀ {p e v t}, ready p (.enum e) → v ∈ (s.enum e).values → v.data = some t →
    ready p (.struct t)
  declares : ∀ {p base}, s.Declares base → p.ongoing = [] → ready p base
  endless : fault .endless

/-- What one level of the pass may expect of the level below. -/
def Serves (s : Schema) (holds : Spreading → Prop) (ready : Spreading → TypeBase → Prop)
    (fault : AnalysisFailure → Prop) (descend : TypeBase → SpreadingPass Unit) : Prop :=
  ∀ base p, holds p → ready p base → Within (descend base) p fault fun _ q =>
    holds q ∧ Goes p q ∧ Entered s base q

namespace Course

variable {holds : Spreading → Prop} {ready : Spreading → TypeBase → Prop}
  {fault : AnalysisFailure → Prop} {descend : TypeBase → SpreadingPass Unit}

theorem field (course : Course s holds ready fault) (held : holds p) (id : FieldId) :
    p.schema.field id = s.field id := by
  rw [Schema.field, Schema.field, course.fields held]

theorem enum (course : Course s holds ready fault) (held : holds p) (e : EnumId) :
    p.schema.enum e = s.enum e := by
  rw [Schema.enum, Schema.enum, course.enums held]

theorem visit_field (course : Course s holds ready fault)
    (serves : Serves s holds ready fault descend) (held : holds p) {id : FieldId}
    (free : ready p (s.field id).type.base) :
    Within (visitField descend id) p fault fun _ q =>
      holds q ∧ Goes p q ∧ Entered s (s.field id).type.base q := by
  apply Within.bind
  apply Within.get
  rw [course.field held]
  exact serves _ p held free

def Visited (s : Schema) (m : Member) (p : Spreading) : Prop :=
  ∀ id, m = .field id → Entered s (s.field id).type.base p

theorem visit_member (course : Course s holds ready fault)
    (serves : Serves s holds ready fault descend) (held : holds p) {m : Member}
    (free : ∀ id, m = .field id → ready p (s.field id).type.base) :
    Within (visitMember descend m) p fault fun _ q =>
      holds q ∧ Goes p q ∧ Visited s m q := by
  cases m with
  | field id =>
    apply (course.visit_field serves held (free id rfl)).mono
    rintro _ q ⟨held, goes, entered⟩
    refine ⟨held, goes, fun other same => ?_⟩
    cases same
    exact entered
  | spread name nameLocation location => exact Within.pure ⟨held, .refl p, nofun⟩

theorem visit_held {α : Type} (course : Course s holds ready fault)
    (serves : Serves s holds ready fault descend) (held : holds p) {members : List Member}
    {ids : List FieldId} {rest : SpreadingPass α} {post : α → Spreading → Prop}
    (free : ∀ id, .field id ∈ members ∨ id ∈ ids → ready p (s.field id).type.base)
    (goesOn : ∀ q, holds q → Goes p q → (∀ id, .field id ∈ members ∨ id ∈ ids →
      Entered s (s.field id).type.base q) →
        Within rest q fault post) :
    Within (do
        members.forM (visitMember descend)
        ids.forM (visitField descend)
        rest) p fault post := by
  apply Within.bind
  apply (Within.forM_all Goes (Visited s) Goes.refl (fun _ _ _ => Goes.trans)
    (fun m q r goes visited id same t enters => goes.begun (visited id same t enters)) held
    fun m member q held goes => course.visit_member serves held ?_).mono
  · rintro _ q ⟨held, goes, visited⟩
    apply Within.bind
    apply (Within.forM_all Goes (fun id => Entered s (s.field id).type.base)
      Goes.refl (fun _ _ _ => Goes.trans)
      (fun _ _ _ goes entered => entered.later goes) held
      fun id member r held goes' => course.visit_field serves held ?_).mono
    · rintro _ r ⟨held, goes', entered⟩
      apply goesOn r held (goes.trans goes')
      rintro id (member | member) t enters
      · exact goes'.begun (visited _ member id rfl t enters)
      · exact entered id member t enters
    · exact course.later (free id (.inr member)) (goes.trans goes')
  · rintro id rfl
    exact course.later (free id (.inl member)) goes

theorem expand_struct (course : Course s holds ready fault)
    (serves : Serves s holds ready fault descend) {t : StructId} (fresh : t ∉ p.begun)
    (finished : t ∉ p.ongoing) (same : p.schema.struct t = s.struct t)
    (begins : holds ⟨p.schema, t :: p.begun, t :: p.ongoing⟩)
    (free : ∀ id, s.Holds t id →
      ready ⟨p.schema, t :: p.begun, t :: p.ongoing⟩ (s.field id).type.base)
    (closes : ∀ q, holds q → Goes ⟨p.schema, t :: p.begun, t :: p.ongoing⟩ q →
      (∀ id, s.Holds t id → Entered s (s.field id).type.base q) →
        Within (expandMembers descend (s.struct t).members []) q fault fun added r =>
          Goes q r ∧ holds (close r t ((s.struct t).fields ++ added) p.ongoing)) :
    Within (expandStruct descend t) p fault fun _ q =>
      holds q ∧ Goes p q ∧ t ∈ q.begun := by
  apply Within.bind
  apply Within.modify
  apply Within.bind
  apply Within.get
  simp only [same]
  apply course.visit_held serves begins free
  intro q held goes entered
  apply Within.bind
  apply (closes q held goes entered).mono
  rintro added r ⟨goes', closed⟩
  apply Within.bind
  apply Within.modify
  apply Within.modify
  have goes := goes.trans goes'
  have begun : t ∈ r.begun := goes.begun (List.mem_cons_self ..)
  rw [filter_ongoing goes.ongoing finished]
  have kept : Keeps r (close r t ((s.struct t).fields ++ added) p.ongoing) :=
    keeps_close begun goes.ongoing finished
  exact ⟨closed, ⟨(keeps_begin fresh).trans (goes.keeps.trans kept),
    fun u member => goes.begun (List.mem_cons_of_mem _ member), rfl⟩, begun⟩

/-- The expansion of a struct that has not begun keeps the invariant, and has then begun. -/
def Keeping (s : Schema) (holds : Spreading → Prop) (ready : Spreading → TypeBase → Prop)
    (fault : AnalysisFailure → Prop) : Prop :=
  ∀ {descend t p}, Serves s holds ready fault descend → holds p → t ∉ p.begun → ready p (.struct t) →
    Within (expandStruct descend t) p fault fun _ q => holds q ∧ Goes p q ∧ t ∈ q.begun

theorem visit_base (course : Course s holds ready fault)
    (keeping : Keeping s holds ready fault) (fuel : Nat) :
    Serves s holds ready fault (visitBase fuel) := by
  induction fuel with
  | zero => intro base p _ _; exact Within.throw course.endless
  | succ fuel ih =>
    intro base p held free
    cases base with
    | primitive kind => exact Within.pure ⟨held, .refl p, nofun⟩
    | reference name location => exact Within.pure ⟨held, .refl p, nofun⟩
    | enum e =>
      apply Within.bind
      apply Within.get
      rw [course.enum held]
      apply (Within.forM_all Goes (fun v q => ∀ t, v.data = some t → t ∈ q.begun) Goes.refl
        (fun _ _ _ => Goes.trans) ?_ held ?_).mono
      · rintro _ q ⟨held, goes, entered⟩
        refine ⟨held, goes, fun t enters => ?_⟩
        cases enters with
        | value member data => exact entered _ member t data
      · exact fun v q r goes entered t data => goes.begun (entered t data)
      · intro v member q held goes
        split
        · next none => exact Within.pure ⟨held, .refl q, by simp [none]⟩
        · next t data =>
          apply (ih (.struct t) q held (course.value (course.later free goes) member data)).mono
          rintro _ r ⟨held, goes', entered⟩
          refine ⟨held, goes', fun u same => ?_⟩
          cases data.symm.trans same
          exact entered t .struct
    | struct t =>
      apply Within.bind
      apply Within.get
      split
      · next begun =>
        refine Within.pure ⟨held, .refl p, fun u enters => ?_⟩
        cases enters
        simpa using begun
      · next fresh =>
        apply (keeping ih held (by simpa using fresh) free).mono
        rintro _ q ⟨held, goes, begun⟩
        refine ⟨held, goes, fun u enters => ?_⟩
        cases enters
        exact begun

theorem visit_type (course : Course s holds ready fault)
    (keeping : Keeping s holds ready fault) (held : holds p)
    (idle : p.ongoing = []) {t : TypeUse} (declared : s.Declares t.base) :
    Within (visitType t) p fault fun _ q =>
      holds q ∧ Goes p q ∧ Entered s t.base q := by
  apply Within.bind
  apply Within.get
  exact course.visit_base keeping _ t.base p held (course.declares declared idle)

theorem expand_operation (course : Course s holds ready fault)
    (keeping : Keeping s holds ready fault) (held : holds p)
    (idle : p.ongoing = []) {o : Operation} (member : o ∈ s.operations)
    {post : Operation → Spreading → Prop}
    (closes : ∀ descend q, Serves s holds ready fault descend → holds q → Goes p q →
      (∀ id, .field id ∈ o.members ∨ id ∈ o.args → Entered s (s.field id).type.base q) →
      Entered s o.returns.base q →
        Within (expandMembers descend o.members []) q fault fun added r =>
          holds r ∧ Goes q r ∧ post { o with members := [], args := o.args ++ added } r) :
    Within (expandOperation o) p fault fun o' q => holds q ∧ Goes p q ∧ post o' q := by
  have serves := course.visit_base keeping (bound p.schema)
  apply Within.bind
  apply Within.get
  apply course.visit_held serves held
  · exact fun id held => course.declares (.argument member held) idle
  · intro q held goes entered
    apply Within.bind
    apply (course.visit_type keeping held (goes.ongoing.trans idle) (.returns member)).mono
    rintro _ q' ⟨held, goes', returns⟩
    apply Within.bind
    apply (closes _ q' serves held (goes.trans goes')
      (fun id written => (entered id written).later goes') returns).mono
    rintro added r ⟨held, goes'', made⟩
    exact Within.pure ⟨held, (goes.trans goes').trans goes'', made⟩

/-- The state in the end: no struct goes on, and what is declared has begun. -/
structure Ended (s : Schema) (holds : Spreading → Prop)
    (done : Operation → Operation → Spreading → Prop) (operations : List Operation)
    (p : Spreading) : Prop where
  held : holds p
  idle : p.ongoing = []
  errors : ∀ e ∈ s.errors, Entered s e.data.base p
  definitions : ∀ d ∈ s.definitions, Entered s d.type.base p
  operations : List.Forall₂ (fun o o' => done o o' p) s.operations operations

theorem expand_all (course : Course s holds ready fault)
    (keeping : Keeping s holds ready fault)
    {done : Operation → Operation → Spreading → Prop}
    (kept : ∀ o o' q r, Goes q r → done o o' q → done o o' r)
    (expands : ∀ o ∈ s.operations, ∀ p, holds p → p.ongoing = [] →
      Within (expandOperation o) p fault fun o' q => holds q ∧ Goes p q ∧ done o o' q) :
    Within expandAll ⟨s, [], []⟩ fault fun _ q => ∃ r operations,
      Ended s holds done operations r ∧ q.schema = { r.schema with operations } := by
  apply Within.bind
  apply Within.get
  apply Within.bind
  apply (Within.forM_all Goes (fun e => Entered s e.data.base) Goes.refl
    (fun _ _ _ => Goes.trans) (fun _ _ _ goes entered => entered.later goes)
    course.start fun _ member _ held further =>
      course.visit_type keeping held further.ongoing (.error member)).mono
  rintro _ q ⟨held, goes, errors⟩
  apply Within.bind
  apply Within.get
  apply Within.bind
  rw [course.definitions held]
  apply (Within.forM_all Goes (fun d => Entered s d.type.base) Goes.refl
    (fun _ _ _ => Goes.trans) (fun _ _ _ goes entered => entered.later goes)
    held fun _ member _ held further =>
      course.visit_type keeping held (further.ongoing.trans goes.ongoing) (.definition member)).mono
  rintro _ q' ⟨held, goes', definitions⟩
  apply Within.bind
  apply Within.get
  apply Within.bind
  rw [course.operations held]
  have idle := (goes.trans goes').ongoing
  apply (Within.mapM_all Goes done Goes.refl (fun _ _ _ => Goes.trans) kept held
    fun o member q held further => expands o member q held (further.ongoing.trans idle)).mono
  rintro operations r ⟨held, goes'', expanded⟩
  apply Within.modify
  refine ⟨r, operations, ⟨held, goes''.ongoing.trans idle, ?_, ?_, expanded⟩, rfl⟩
  · exact fun e member => ((errors e member).later goes').later goes''
  · exact fun d member => (definitions d member).later goes''

end Course

theorem of_expand_spreads {s' : Schema} {fault : AnalysisFailure → Prop} {post : Schema → Prop}
    (run : Within expandAll ⟨s, [], []⟩ fault fun _ q => post q.schema)
    (expanded : s.expandSpreads = .ok s') : post s' := by
  cases ran : expandAll.run ⟨s, [], []⟩ with
  | error e => simp only [expandSpreads, ran] at expanded; cases expanded
  | ok outcome =>
    simp only [expandSpreads, ran] at expanded
    cases expanded
    exact run.of_ok ran

end Spreading

end ApiSchema
