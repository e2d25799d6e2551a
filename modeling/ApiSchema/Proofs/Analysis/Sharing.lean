import ApiSchema.Proofs.Analysis.Descent
import ApiSchema.Proofs.Schema.Parents

/-! Where every nested type stands in one place, the spreads that are accepted nest no type in
itself: whatever is entered from inside a struct is done by the time the struct is. -/

namespace ApiSchema

namespace Spreading

open Schema

/-- Nothing in a base is nested in itself, or is to be changed any more. -/
structure Settled (p : Spreading) (base : TypeBase) : Prop where
  acyclic : p.schema.Acyclic base
  done : ∀ t, p.schema.Contains base (.struct t) → Done p t

theorem Settled.inside {p : Spreading} {base part : TypeBase} (settled : Settled p base)
    (contains : p.schema.Contains base part) : Settled p part :=
  ⟨fun deeper way => settled.acyclic deeper (contains.trans way),
    fun t way => settled.done t (contains.trans way)⟩

namespace Keeps

variable {p q r : Spreading}

theorem nests (keeps : Keeps p q) {base part : TypeBase}
    (done : ∀ t, base = .struct t → Done p t) (nests : q.schema.Nests base part) :
    p.schema.Nests base part := by
  cases nests with
  | field held =>
    have same := (keeps.done _ (done _ rfl)).2
    rw [keeps.field]
    rw [Holds, same] at held
    exact .field held
  | value member data =>
    rw [keeps.enum] at member
    exact .value member data

theorem contains (keeps : Keeps p q) {base part : TypeBase} (settled : Settled p base)
    (contains : q.schema.Contains base part) : p.schema.Contains base part := by
  induction contains with
  | refl => exact .refl
  | tail _ nests ih =>
    exact ih.tail (keeps.nests (fun t same => settled.done t (same ▸ ih)) nests)

theorem settled (keeps : Keeps p q) {base : TypeBase} (settled : Settled p base) :
    Settled q base where
  acyclic := by
    intro part inside cycle
    have inside := keeps.contains settled inside
    have inner := settled.inside inside
    obtain ⟨next, nests, back⟩ := Relation.TransGen.head'_iff.mp cycle
    have step := keeps.nests (fun t same => inner.done t (same ▸ .refl)) nests
    have back := keeps.contains (inner.inside (.single step)) back
    exact inner.acyclic part .refl (.head' step back)
  done t inside := (keeps.done t (settled.done t (keeps.contains settled inside))).1

end Keeps

theorem settled_of_nests {p : Spreading} {base : TypeBase}
    (done : ∀ t, base = .struct t → Done p t)
    (inner : ∀ part, p.schema.Nests base part → Settled p part) : Settled p base where
  acyclic := by
    intro part contains cycle
    rcases Relation.ReflTransGen.cases_head contains with rfl | ⟨next, nests, further⟩
    · obtain ⟨next, nests, back⟩ := Relation.TransGen.head'_iff.mp cycle
      exact (inner next nests).acyclic base back cycle
    · exact (inner next nests).acyclic part further cycle
  done := by
    intro t contains
    rcases Relation.ReflTransGen.cases_head contains with same | ⟨next, nests, further⟩
    · exact done t same
    · exact (inner next nests).done t further

/-- The state of a pass over `s`: only what is done has changed, and what is around a struct has
begun before it. -/
structure Ordered (s : Schema) (p : Spreading) : Prop where
  fields : p.schema.fields = s.fields
  enums : p.schema.enums = s.enums
  definitions : p.schema.definitions = s.definitions
  errors : p.schema.errors = s.errors
  operations : p.schema.operations = s.operations
  ongoing : p.ongoing ⊆ p.begun
  unchanged : ∀ t, ¬ Done p t → p.schema.struct t = s.struct t
  upward : ∀ t ∈ p.begun, ∀ u, s.Placed (.struct u) →
    s.ProperlyContains (.struct u) (.struct t) → u ∈ p.begun
  settled : ∀ t, Done p t → Settled p (.struct t)

/-- The structs around a base have begun. -/
structure Ready (s : Schema) (p : Spreading) (base : TypeBase) : Prop where
  placed : s.Placed base
  begun : base.IsNested → ∀ u, s.Placed (.struct u) → s.ProperlyContains (.struct u) base →
    u ∈ p.begun

variable {s : Schema} {p q r : Spreading}

theorem Ordered.field (ordered : Ordered s p) (id : FieldId) : p.schema.field id = s.field id := by
  rw [Schema.field, Schema.field, ordered.fields]

theorem Ordered.enum (ordered : Ordered s p) (e : EnumId) : p.schema.enum e = s.enum e := by
  rw [Schema.enum, Schema.enum, ordered.enums]

theorem ordered_start (s : Schema) : Ordered s ⟨s, [], []⟩ where
  fields := rfl
  enums := rfl
  definitions := rfl
  errors := rfl
  operations := rfl
  ongoing _ member := member
  unchanged _ _ := rfl
  upward _ member := by cases member
  settled _ done := by cases done.1

theorem Ready.later {base : TypeBase} (ready : Ready s p base) (begun : p.begun ⊆ q.begun) :
    Ready s q base :=
  ⟨ready.placed, fun nested u placed around => begun (ready.begun nested u placed around)⟩

theorem ready_of_declares (unshared : s.Unshared) {base : TypeBase} (declared : s.Declares base) :
    Ready s p base := by
  refine ⟨placed_of_declares declared, fun nested u placed around => ?_⟩
  obtain ⟨parent, contains, nests⟩ := Relation.TransGen.tail'_iff.mp around
  exact absurd declared (unshared.top (placed.contains contains) nests nested)

theorem ready_of_nests (unshared : s.Unshared) {base part : TypeBase} (ready : Ready s p base)
    (begun : ∀ u, base = .struct u → u ∈ p.begun) (nests : s.Nests base part) :
    Ready s p part := by
  refine ⟨ready.placed.contains (.single nests), fun nested u placed around => ?_⟩
  obtain ⟨parent, contains, nests'⟩ := Relation.TransGen.tail'_iff.mp around
  have same := unshared.parent (placed.contains contains) ready.placed nests' nests nested
  rw [same] at contains
  rcases Relation.reflTransGen_iff_eq_or_transGen.mp contains with equal | around
  · exact begun u equal
  · exact ready.begun nests.nested u placed around

theorem ordered_course (unshared : s.Unshared) : Course s (Ordered s) (Ready s) fun _ => True where
  start := ordered_start s
  fields := Ordered.fields
  enums := Ordered.enums
  definitions := Ordered.definitions
  operations := Ordered.operations
  later ready goes := ready.later goes.begun
  value ready member data := ready_of_nests unshared ready nofun (.value member data)
  declares declared _ := ready_of_declares unshared declared
  endless := trivial

theorem settled_of_enters (ordered : Ordered s p) {base : TypeBase}
    (done : ∀ t, s.Enters base t → Done p t) : Settled p base := by
  cases base with
  | primitive kind => exact settled_of_nests nofun fun _ nests => (by cases nests)
  | reference name location => exact settled_of_nests nofun fun _ nests => (by cases nests)
  | struct t => exact ordered.settled t (done t .struct)
  | enum e =>
    refine settled_of_nests nofun fun part nests => ?_
    cases nests with
    | value member data =>
      rw [ordered.enum] at member
      exact ordered.settled _ (done _ (.value member data))

def SettledFields (s : Schema) (p : Spreading) (ids : List FieldId) : Prop :=
  ∀ id ∈ ids, Settled p (s.field id).type.base

theorem SettledFields.later {ids : List FieldId} (settled : SettledFields s p ids)
    (keeps : Keeps p q) : SettledFields s q ids :=
  fun id member => keeps.settled (settled id member)

theorem settled_fields_of_done (ordered : Ordered s p) {t : StructId} (done : Done p t) :
    SettledFields s p (p.schema.struct t).fields := by
  intro id member
  have nests : p.schema.Nests (.struct t) (p.schema.field id).type.base := .field (.inr member)
  rw [ordered.field] at nests
  exact (ordered.settled t done).inside (.single nests)

theorem resolve_declares {name : String} {t : StructId}
    (resolved : s.resolve name = .ok ⟨[], .struct t⟩) : s.Declares (.struct t) := by
  obtain ⟨d, member, written⟩ := resolve_defined resolved
  have declared : s.Declares d.type.base := .definition member
  rwa [written] at declared

theorem expand_members_settles (unshared : s.Unshared) {descend : TypeBase → SpreadingPass Unit}
    (settles : Serves s (Ordered s) (Ready s) (fun _ => True) descend) :
    ∀ {members : List Member} {ids : List FieldId} {p : Spreading}, Ordered s p →
      (∀ id, .field id ∈ members → Settled p (s.field id).type.base) → SettledFields s p ids →
      Within (expandMembers descend members ids) p (fun _ => True) fun added q =>
        Ordered s q ∧ Goes p q ∧ SettledFields s q added := by
  intro members
  induction members with
  | nil => intro ids p ordered _ settled; exact Within.pure ⟨ordered, .refl p, settled⟩
  | cons m rest ih =>
    intro ids p ordered written settled
    have later : ∀ id, .field id ∈ rest → Settled p (s.field id).type.base :=
      fun id member => written id (List.mem_cons_of_mem _ member)
    cases m with
    | field id =>
      apply Within.bind
      apply Within.get
      apply ih ordered later
      intro other member
      rcases mem_addField member with rfl | old
      · exact written other (List.mem_cons_self ..)
      · exact settled other old
    | spread name nameLocation location =>
      apply Within.bind
      apply ((target_within name location p).weaken fun _ _ => trivial).mono
      rintro u p' ⟨rfl, resolved, finished⟩
      rw [resolve_congr ordered.definitions] at resolved
      apply Within.bind
      apply (settles (.struct u) _ ordered
        (ready_of_declares unshared (resolve_declares resolved))).mono
      rintro _ q ⟨ordered', goes, entered⟩
      have done : Done q u := ⟨entered u .struct, goes.ongoing ▸ finished⟩
      apply Within.bind
      apply Within.get
      apply (ih ordered' (fun id member => goes.keeps.settled (later id member)) ?_).mono
      · rintro added r ⟨ordered, goes', settled⟩
        exact ⟨ordered, goes.trans goes', settled⟩
      · intro other member
        rcases mem_addFields member with spread | old
        · exact settled_fields_of_done ordered' done other spread
        · exact goes.keeps.settled (settled other old)

theorem ordered_begin (ordered : Ordered s p) {t : StructId} (fresh : t ∉ p.begun)
    (ready : Ready s p (.struct t)) : Ordered s ⟨p.schema, t :: p.begun, t :: p.ongoing⟩ := by
  refine ⟨ordered.fields, ordered.enums, ordered.definitions, ordered.errors, ordered.operations,
    ?_, ?_, ?_, ?_⟩
  · exact List.cons_subset_cons t ordered.ongoing
  · exact fun u waiting => ordered.unchanged u fun done => waiting ((done_begin fresh u).mpr done)
  · intro u member v placed around
    rcases List.mem_cons.mp member with rfl | member
    · exact List.mem_cons_of_mem _ (ready.begun trivial v placed around)
    · exact List.mem_cons_of_mem _ (ordered.upward u member v placed around)
  · intro u done
    exact (keeps_begin fresh).settled (ordered.settled u ((done_begin fresh u).mp done))

/-- What a struct has nested in it cannot be what it is expanded for. -/
theorem not_ongoing_of_enters (grounded : s.Grounded) (ordered : Ordered s p) {t u : StructId}
    (fresh : t ∉ p.begun) (placed : s.Placed (.struct t)) {base : TypeBase}
    (nests : s.Nests (.struct t) base) (enters : s.Enters base u) : u ∉ t :: p.ongoing := by
  have inside : s.ProperlyContains (.struct t) (.struct u) := .head' nests enters.contains
  intro member
  rcases List.mem_cons.mp member with rfl | going
  · obtain ⟨root, declared, contains⟩ := placed
    exact grounded root declared _ contains inside
  · exact fresh (ordered.upward u (ordered.ongoing going) t placed inside)

section Close

variable {t : StructId} {ongoing : List StructId} {ids : List FieldId}

theorem nests_close {part : TypeBase}
    (nests : (close q t ids ongoing).schema.Nests (.struct t) part) :
    ∃ id ∈ ids, part = (q.schema.field id).type.base := by
  cases nests with
  | @field _ id held =>
    refine ⟨id, ?_, rfl⟩
    have inside := holds_inside held
    simp only [close, setStruct, Array.size_setIfInBounds] at inside
    simpa [Holds, close, struct_setStruct, inside] using held

/-- A struct whose fields are settled is settled itself. -/
theorem ordered_close (ordered : Ordered s q) (begun : t ∈ q.begun)
    (going : q.ongoing = t :: ongoing) (distinct : t ∉ ongoing)
    (settled : SettledFields s q ids) : Ordered s (close q t ids ongoing) := by
  have keeps : Keeps q (close q t ids ongoing) := keeps_close begun going distinct
  have done : ∀ u, Done (close q t ids ongoing) u ↔ u = t ∨ Done q u :=
    done_close begun going distinct
  refine ⟨ordered.fields, ordered.enums, ordered.definitions, ordered.errors, ordered.operations,
    ?_, ?_, ordered.upward, ?_⟩
  · exact fun u member => ordered.ongoing (going ▸ List.mem_cons_of_mem _ member)
  · intro u waiting
    rw [done, not_or] at waiting
    simpa [close, struct_setStruct, waiting.1] using ordered.unchanged u waiting.2
  · intro u finished
    rcases (done u).mp finished with rfl | earlier
    · apply settled_of_nests
      · intro v same
        cases same
        exact finished
      · intro part nests
        obtain ⟨id, member, rfl⟩ := nests_close nests
        rw [ordered.field]
        exact keeps.settled (settled id member)
    · exact keeps.settled (ordered.settled u earlier)

end Close

theorem expand_struct_settles (unshared : s.Unshared) (grounded : s.Grounded) :
    Course.Keeping s (Ordered s) (Ready s) fun _ => True := by
  intro descend t p settles ordered fresh ready
  have finished : t ∉ p.ongoing := fun going => fresh (ordered.ongoing going)
  apply (ordered_course unshared).expand_struct settles fresh finished
    (ordered.unchanged t fun done => fresh done.1) (ordered_begin ordered fresh ready)
  · intro id held
    exact ready_of_nests unshared (ready.later (List.subset_cons_self ..))
      (fun u equal => by cases equal; exact List.mem_cons_self ..) (.field held)
  · intro q ordered' goes entered
    have settled : ∀ id, s.Holds t id → Settled q (s.field id).type.base := by
      intro id held
      apply settled_of_enters ordered'
      intro u enters
      refine ⟨entered id held u enters, ?_⟩
      rw [goes.ongoing]
      exact not_ongoing_of_enters grounded ordered fresh ready.placed (.field held) enters
    apply (expand_members_settles unshared settles ordered'
      (fun id member => settled id (.inl member)) (fun _ member => by cases member)).mono
    rintro added r ⟨ordered'', goes', spread⟩
    have further := goes.trans goes'
    refine ⟨goes', ordered_close ordered'' (further.begun (List.mem_cons_self ..)) further.ongoing
      finished ?_⟩
    intro id member
    rcases List.mem_append.mp member with held | added
    · exact goes'.keeps.settled (settled id (.inr held))
    · exact spread id added

structure OperationSettled (s : Schema) (o : Operation) (p : Spreading) : Prop where
  members : o.members = []
  args : SettledFields s p o.args
  returns : Entered s o.returns.base p

theorem expand_operation_settles (unshared : s.Unshared) (grounded : s.Grounded)
    (ordered : Ordered s p) (idle : p.ongoing = []) {o : Operation} (member : o ∈ s.operations) :
    Within (expandOperation o) p (fun _ => True) fun o' q =>
      Ordered s q ∧ Goes p q ∧ OperationSettled s o' q := by
  apply (ordered_course unshared).expand_operation (expand_struct_settles unshared grounded) ordered idle
    member
  intro descend q settles ordered goes entered returns
  have settled : ∀ id, .field id ∈ o.members ∨ id ∈ o.args → Settled q (s.field id).type.base :=
    fun id held => settled_of_enters ordered fun u enters =>
      (entered id held).done (goes.ongoing.trans idle) enters
  apply (expand_members_settles unshared settles ordered (fun id member => settled id (.inl member))
    (fun _ member => by cases member)).mono
  rintro added r ⟨ordered, goes', spread⟩
  refine ⟨ordered, goes', rfl, ?_, returns.later goes'⟩
  intro id member
  rcases List.mem_append.mp member with held | added
  · exact goes'.keeps.settled (settled id (.inr held))
  · exact spread id added

abbrev Finished (s : Schema) : List Operation → Spreading → Prop :=
  Course.Ended s (Ordered s) fun _ => OperationSettled s

theorem expand_all_settles (unshared : s.Unshared) (grounded : s.Grounded) :
    Within expandAll ⟨s, [], []⟩ (fun _ => True) fun _ q => ∃ r operations,
      Finished s operations r ∧ q.schema = { r.schema with operations } := by
  apply (ordered_course unshared).expand_all (expand_struct_settles unshared grounded)
  · exact fun _ o' q r goes settled =>
      ⟨settled.members, settled.args.later goes.keeps, settled.returns.later goes⟩
  · exact fun o member p ordered idle =>
      expand_operation_settles unshared grounded ordered idle member

theorem grounded_of_finished {operations : List Operation} (finished : Finished s operations p) :
    Schema.Grounded { p.schema with operations } := by
  have same : SameTypes p.schema { p.schema with operations } := ⟨rfl, rfl, rfl, rfl⟩
  have ordered := finished.held
  have settled : ∀ {base}, Entered s base p → Settled p base := fun entered =>
    settled_of_enters ordered fun u enters => entered.done finished.idle enters
  intro base declared
  apply same.acyclic
  cases declared with
  | @definition d member =>
    have written : d ∈ s.definitions := ordered.definitions ▸ member
    exact (settled (finished.definitions d written)).acyclic
  | @error e member =>
    have written : e ∈ s.errors := ordered.errors ▸ member
    exact (settled (finished.errors e written)).acyclic
  | @argument o id member held =>
    obtain ⟨_, _, made⟩ := exists_left finished.operations member
    rcases held with written | held
    · rw [made.members] at written
      cases written
    · have acyclic := (made.args id held).acyclic
      rwa [← ordered.field] at acyclic
  | spread => exact acyclic_of_not_deep (not_deep_reference 0 _ _)
  | @returns o member =>
    obtain ⟨_, _, made⟩ := exists_left finished.operations member
    exact (settled made.returns).acyclic

end Spreading

namespace Schema

theorem Treelike.expands_grounded {s s' : Schema} (treelike : s.Treelike)
    (expanded : s.expandSpreads = .ok s') : s'.Grounded := by
  refine Spreading.of_expand_spreads
    ((Spreading.expand_all_settles treelike.unshared treelike.grounded).mono ?_) expanded
  rintro _ q ⟨r, operations, finished, result⟩
  rw [result]
  exact Spreading.grounded_of_finished finished

end Schema

end ApiSchema
