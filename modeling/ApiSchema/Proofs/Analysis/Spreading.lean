import ApiSchema.Analysis.Spreading
import ApiSchema.Proofs.Running
import ApiSchema.Proofs.Schema.Leading

/-! What the expansion of spreads keeps: a struct only gains fields of what it led to before. -/

namespace ApiSchema

namespace Schema

/-- The fields that members stand for: those among them, and all of a struct that is spread. -/
def Supplies (s : Schema) (members : List Member) (id : FieldId) : Prop :=
  .field id ∈ members ∨
    ∃ name nameLocation location u, Member.spread name nameLocation location ∈ members ∧
      s.Reaches (.reference name nameLocation) (.struct u) ∧ s.Holds u id

theorem known_of_supplies {s : Schema} {o : Operation} (member : o ∈ s.operations) {id : FieldId}
    (supplied : s.Supplies o.members id) : s.Known (s.field id).type.base := by
  rcases supplied with written | ⟨name, nameLocation, location, u, spread, reaches, held⟩
  · exact known_of_declares (.argument member (.inl written))
  · exact ⟨_, .spread member spread, reaches.tail (.field held)⟩

theorem owns_of_supplies {s : Schema} {t : StructId} {id : FieldId}
    (supplied : s.Supplies (s.struct t).members id) : s.Owns t id := by
  rcases supplied with written | ⟨name, nameLocation, location, u, member, reaches, held⟩
  · exact owns_of_holds (.inl written)
  · exact ⟨u, .head (.spread member) reaches, held⟩

def DistinctNames (s : Schema) (ids : List FieldId) : Prop :=
  (ids.map fun id => (s.field id).name).Nodup

theorem distinct_nil (s : Schema) : s.DistinctNames [] := List.nodup_nil

/-- A schema in which some spreads of another one have given way to fields. -/
structure Inherits (s s' : Schema) : Prop where
  size : s'.structs.size = s.structs.size
  fields : s'.fields = s.fields
  enums : s'.enums = s.enums
  definitions : s'.definitions = s.definitions
  errors : s'.errors = s.errors
  operations : s'.operations = s.operations
  name : ∀ t, (s'.struct t).name = (s.struct t).name
  held : ∀ {t id}, s'.Holds t id → s.Owns t id
  spread : ∀ {t name nameLocation location},
    Member.spread name nameLocation location ∈ (s'.struct t).members →
      Member.spread name nameLocation location ∈ (s.struct t).members

namespace Inherits

variable {s s' s'' : Schema}

theorem refl (s : Schema) : Inherits s s :=
  ⟨rfl, rfl, rfl, rfl, rfl, rfl, fun _ => rfl, owns_of_holds, id⟩

theorem field (inherits : Inherits s s') (id : FieldId) : s'.field id = s.field id := by
  rw [Schema.field, Schema.field, inherits.fields]

theorem enum (inherits : Inherits s s') (id : EnumId) : s'.enum id = s.enum id := by
  rw [Schema.enum, Schema.enum, inherits.enums]

theorem definition? (inherits : Inherits s s') (name : String) :
    s'.definition? name = s.definition? name :=
  definition_congr inherits.definitions name

theorem resolve (inherits : Inherits s s') (name : String) : s'.resolve name = s.resolve name :=
  resolve_congr inherits.definitions name

theorem leads (inherits : Inherits s s') {first next : TypeBase} (step : s'.Leads first next) :
    s.Reaches first next := by
  cases step with
  | reference defined => exact .single (.reference (inherits.definition? _ ▸ defined))
  | field held =>
    rw [inherits.field]
    exact (inherits.held held).reaches
  | spread member => exact .single (.spread (inherits.spread member))
  | value member data =>
    rw [inherits.enum] at member
    exact .single (.value member data)

theorem reaches (inherits : Inherits s s') {first last : TypeBase} (way : s'.Reaches first last) :
    s.Reaches first last := by
  induction way with
  | refl => exact .refl
  | tail _ step ih => exact ih.trans (inherits.leads step)

theorem owns (inherits : Inherits s s') {t : StructId} {id : FieldId} (owned : s'.Owns t id) :
    s.Owns t id := by
  obtain ⟨u, reaches, held⟩ := owned
  exact owns_of_reaches (inherits.reaches reaches) (inherits.held held)

theorem trans (first : Inherits s s') (second : Inherits s' s'') : Inherits s s'' where
  size := second.size.trans first.size
  fields := second.fields.trans first.fields
  enums := second.enums.trans first.enums
  definitions := second.definitions.trans first.definitions
  errors := second.errors.trans first.errors
  operations := second.operations.trans first.operations
  name t := (second.name t).trans (first.name t)
  held member := first.owns (second.held member)
  spread member := first.spread (second.spread member)

end Inherits

theorem Inherits.distinct_names (inherits : Inherits s s') {ids : List FieldId} :
    s'.DistinctNames ids ↔ s.DistinctNames ids := by
  simp [DistinctNames, inherits.field]

theorem holds_setStruct {s : Schema} {t u : StructId} {r : Struct} {id : FieldId}
    (held : (s.setStruct t r).Holds u id) :
    (u = t ∧ (.field id ∈ r.members ∨ id ∈ r.fields)) ∨ s.Holds u id := by
  simp only [Holds, struct_setStruct] at held
  split at held
  · next same => exact .inl ⟨same.1, held⟩
  · exact .inr held

structure OperationExpands (s : Schema) (o o' : Operation) : Prop where
  name : o'.name = o.name
  returns : o'.returns = o.returns
  notes : o'.notes = o.notes
  members : o'.members = []
  args : ∀ id ∈ o'.args, id ∈ o.args ∨ s.Supplies o.members id
  distinct : o.args = [] → s.DistinctNames o'.args

theorem Inherits.supplies (inherits : Inherits s s') {members : List Member} {id : FieldId}
    (supplied : s'.Supplies members id) : s.Supplies members id := by
  rcases supplied with written | ⟨name, nameLocation, location, u, member, reaches, held⟩
  · exact .inl written
  · obtain ⟨v, further, held⟩ := inherits.held held
    exact .inr ⟨name, nameLocation, location, v, member,
      (inherits.reaches reaches).trans further, held⟩

/-- A schema that the expansion of spreads has been made of another one. -/
structure Expands (s s' : Schema) : Prop where
  inherits : s.Inherits { s' with operations := s.operations }
  operations : List.Forall₂ s.OperationExpands s.operations s'.operations
  distinct : (∀ t, (s.struct t).fields = []) → ∀ t, s.DistinctNames (s'.struct t).fields

end Schema

namespace Spreading

open Schema

/-- No struct has two fields of one name, and none has fields before it is expanded. -/
def Tidy (p : Spreading) : Prop :=
  ∀ t, p.schema.DistinctNames (p.schema.struct t).fields ∧
    (t ∉ p.begun → (p.schema.struct t).fields = [])

/-- A later state of the pass. -/
structure Grows (p q : Spreading) : Prop where
  inherits : p.schema.Inherits q.schema
  begun : p.begun ⊆ q.begun
  tidy : Tidy p → Tidy q

namespace Grows

theorem refl (p : Spreading) : Grows p p := ⟨.refl _, fun _ => id, id⟩

theorem trans {p q r : Spreading} (first : Grows p q) (second : Grows q r) : Grows p r where
  inherits := first.inherits.trans second.inherits
  begun _ member := second.begun (first.begun member)
  tidy holds := second.tidy (first.tidy holds)

end Grows

def waiting (p : Spreading) : Nat :=
  ((List.range p.schema.structs.size).filter fun t => !p.begun.contains t).length

theorem waiting_le {p q : Spreading} (grows : Grows p q) : waiting q ≤ waiting p := by
  unfold waiting
  rw [grows.inherits.size, ← List.countP_eq_length_filter, ← List.countP_eq_length_filter]
  apply List.countP_mono_left
  intro t _ free
  simp only [Bool.not_eq_true', List.contains_eq_mem, decide_eq_false_iff_not] at free ⊢
  exact fun member => free (grows.begun member)

theorem waiting_begin {p : Spreading} {t : StructId} {ongoing : List StructId}
    (inside : t < p.schema.structs.size) (fresh : t ∉ p.begun) :
    waiting ⟨p.schema, t :: p.begun, ongoing⟩ < waiting p := by
  have fewer : ((List.range p.schema.structs.size).filter fun u => !(t :: p.begun).contains u) =
      ((List.range p.schema.structs.size).filter fun u => !p.begun.contains u).filter (· != t) := by
    rw [List.filter_filter]
    congr 1
    funext u
    by_cases same : u = t <;> simp [same]
  rw [waiting, fewer]
  apply List.length_filter_lt_length_iff_exists.mpr
  exact ⟨t, by simp [inside, fresh], by simp⟩

theorem mem_addField {s : Schema} {id other : FieldId} {fields : List FieldId}
    (member : other ∈ addField s id fields) : other = id ∨ other ∈ fields := by
  induction fields with
  | nil => exact .inl (by simpa [addField] using member)
  | cons first rest ih =>
    unfold addField at member
    split at member
    · rcases List.mem_cons.mp member with same | later
      · exact .inl same
      · exact .inr (List.mem_cons_of_mem _ later)
    · rcases List.mem_cons.mp member with same | later
      · exact .inr (by simp [same])
      · rcases ih later with same | later
        · exact .inl same
        · exact .inr (List.mem_cons_of_mem _ later)

theorem mem_addFields {s : Schema} {ids fields : List FieldId} {other : FieldId}
    (member : other ∈ ids.foldl (fun fields id => addField s id fields) fields) :
    other ∈ ids ∨ other ∈ fields := by
  induction ids generalizing fields with
  | nil => exact .inr member
  | cons id rest ih =>
    rcases ih member with later | added
    · exact .inl (List.mem_cons_of_mem _ later)
    · rcases mem_addField added with same | old
      · exact .inl (by simp [same])
      · exact .inr old

theorem name_mem_addField {s : Schema} {id : FieldId} {fields : List FieldId} {name : String}
    (member : name ∈ (addField s id fields).map fun id => (s.field id).name) :
    name = (s.field id).name ∨ name ∈ fields.map fun id => (s.field id).name := by
  obtain ⟨other, present, rfl⟩ := List.mem_map.mp member
  rcases mem_addField present with same | old
  · exact .inl (by rw [same])
  · exact .inr (List.mem_map_of_mem old)

theorem distinct_addField {s : Schema} {id : FieldId} {fields : List FieldId}
    (distinct : s.DistinctNames fields) : s.DistinctNames (addField s id fields) := by
  unfold DistinctNames at *
  induction fields with
  | nil => simp [addField]
  | cons first rest ih =>
    simp only [List.map_cons, List.nodup_cons] at distinct
    unfold addField
    split
    · next same => simpa only [List.map_cons, List.nodup_cons, ← same] using distinct
    · next different =>
      simp only [List.map_cons, List.nodup_cons]
      refine ⟨fun member => ?_, ih distinct.2⟩
      rcases name_mem_addField member with same | later
      · exact different same
      · exact distinct.1 later

theorem distinct_addFields {s : Schema} {ids fields : List FieldId}
    (distinct : s.DistinctNames fields) :
    s.DistinctNames (ids.foldl (fun fields id => addField s id fields) fields) := by
  induction ids generalizing fields with
  | nil => exact distinct
  | cons id rest ih => exact ih (distinct_addField distinct)

/-- Why a spread finds no struct: the one it stands for is still being expanded, or it stands for none. -/
inductive Misses (name : String) (location : Location) (p : Spreading) : AnalysisFailure → Prop where
  | cyclic {t} (resolved : p.schema.resolve name = .ok ⟨[], .struct t⟩) (going : t ∈ p.ongoing) :
    Misses name location p (.semantic (.cyclicSpread name location))
  | nowhere {fault} (none : ∀ t, p.schema.resolve name ≠ .ok ⟨[], .struct t⟩) :
    Misses name location p (.semantic fault)

theorem Misses.semantic {name : String} {location : Location} {p : Spreading} {e : AnalysisFailure}
    (misses : Misses name location p e) : IsSemantic e := by
  cases misses with
  | cyclic => exact ⟨_, rfl⟩
  | nowhere => exact ⟨_, rfl⟩

theorem target_within (name : String) (location : Location) (p : Spreading) :
    Within (target name location) p (Misses name location p) fun t q =>
      q = p ∧ p.schema.resolve name = .ok ⟨[], .struct t⟩ ∧ t ∉ p.ongoing := by
  unfold target
  apply Within.bind
  apply Within.get
  cases resolved : p.schema.resolve name with
  | error e => exact Within.throw (.nowhere fun t => by simp [resolved])
  | ok type =>
    split
    · next same => cases same
    · next t same =>
      cases same
      split
      · next going => exact Within.throw (.cyclic resolved (by simpa using going))
      · next done => exact Within.pure ⟨rfl, rfl, by simpa using done⟩
    · next other same =>
      cases same
      refine Within.throw (.nowhere fun t again => ?_)
      cases resolved.symm.trans again
      exact other t rfl

/-- What one level of the pass may expect of the level below, from states with few structs left. -/
def Descends (descend : TypeBase → SpreadingPass Unit) (room : Nat) : Prop :=
  ∀ base q, 2 * waiting q + 1 ≤ room → Within (descend base) q IsSemantic fun _ r => Grows q r

variable {descend : TypeBase → SpreadingPass Unit} {room : Nat} {p : Spreading}

theorem expand_members_within (descends : Descends descend room) (enough : 2 * waiting p + 1 ≤ room)
    {written : List Member} :
    ∀ {members : List Member} {fields : List FieldId} {q : Spreading}, Grows p q →
      members ⊆ written →
      (∀ id ∈ fields, p.schema.Supplies written id) → p.schema.DistinctNames fields →
      Within (expandMembers descend members fields) q IsSemantic fun added r =>
        Grows p r ∧ (∀ id ∈ added, p.schema.Supplies written id) ∧
          p.schema.DistinctNames added := by
  intro members
  induction members with
  | nil => intro fields q grows _ supplied distinct; exact Within.pure ⟨grows, supplied, distinct⟩
  | cons m rest ih =>
    intro fields q grows present supplied distinct
    have here := present (List.mem_cons_self ..)
    have later : rest ⊆ written := fun _ member => present (List.mem_cons_of_mem _ member)
    cases m with
    | field id =>
      apply Within.bind
      apply Within.get
      apply ih grows later
      · intro other member
        rcases mem_addField member with same | old
        · exact same ▸ .inl here
        · exact supplied other old
      · rw [← grows.inherits.distinct_names] at distinct ⊢
        exact distinct_addField distinct
    | spread name nameLocation location =>
      apply Within.bind
      apply ((target_within name location q).weaken fun _ => Misses.semantic).mono
      rintro u q' ⟨rfl, resolved, _⟩
      apply Within.bind
      apply (descends (.struct u) q' ?_).mono
      · intro _ r grown
        have grows' := grows.trans grown
        apply Within.bind
        apply Within.get
        apply ih grows' later
        · intro other member
          rcases mem_addFields member with spread | old
          · rw [grows.inherits.resolve] at resolved
            obtain ⟨v, further, held⟩ := grows'.inherits.held (.inr spread)
            exact .inr ⟨name, nameLocation, location, v, here,
              (resolve_reaches resolved nameLocation).trans further, held⟩
          · exact supplied other old
        · rw [← grows'.inherits.distinct_names] at distinct ⊢
          exact distinct_addFields distinct
      · have := waiting_le grows
        omega

theorem visit_field_within (descends : Descends descend room) (enough : 2 * waiting p + 1 ≤ room)
    {q : Spreading} (grows : Grows p q) (id : FieldId) :
    Within (visitField descend id) q IsSemantic fun _ r => Grows p r := by
  apply Within.bind
  apply Within.get
  apply (descends _ q ?_).mono
  · exact fun _ r grown => grows.trans grown
  · have := waiting_le grows
    omega

theorem visit_member_within (descends : Descends descend room) (enough : 2 * waiting p + 1 ≤ room)
    {q : Spreading} (grows : Grows p q) (m : Member) :
    Within (visitMember descend m) q IsSemantic fun _ r => Grows p r := by
  cases m with
  | field id => exact visit_field_within descends enough grows id
  | spread name nameLocation location => exact Within.pure grows

/-- Putting its fields into a struct keeps what it inherits, if it led to them all. -/
theorem inherits_expanded {s s' : Schema} (inherits : Inherits s s') {t : StructId}
    {fields : List FieldId} (owned : ∀ id ∈ fields, s.Owns t id) :
    Inherits s (s'.setStruct t { s'.struct t with members := [], fields }) where
  size := by simpa [setStruct] using inherits.size
  fields := inherits.fields
  enums := inherits.enums
  definitions := inherits.definitions
  errors := inherits.errors
  operations := inherits.operations
  name u := by
    rw [struct_setStruct]
    split
    · next same => rw [same.1]; exact inherits.name t
    · exact inherits.name u
  held := by
    intro u id held
    rcases holds_setStruct held with ⟨rfl, member | member⟩ | old
    · cases member
    · exact owned id member
    · exact inherits.held old
  spread := by
    intro u name nameLocation location member
    rw [struct_setStruct] at member
    split at member
    · cases member
    · exact inherits.spread member

theorem expand_struct_within (descends : Descends descend room) {t : StructId}
    (fresh : t ∉ p.begun) (enough : 2 * waiting p ≤ room + 1) :
    Within (expandStruct descend t) p IsSemantic fun _ q => Grows p q := by
  apply Within.bind
  apply Within.modify
  apply Within.bind
  apply Within.get
  generalize begin : Spreading.mk p.schema (t :: p.begun) (t :: p.ongoing) = p'
  have grows : Grows p p' := by
    subst begin
    refine ⟨.refl _, List.subset_cons_self _ _, fun tidy u => ⟨(tidy u).1, fun later => ?_⟩⟩
    exact (tidy u).2 fun earlier => later (List.mem_cons_of_mem _ earlier)
  have same : p'.schema = p.schema := by rw [← begin]
  -- A struct outside of the schema has no members, and so begins nothing further.
  have room' : 2 * waiting p' + 1 ≤ room ∨
      (p'.schema.struct t).members = [] ∧ (p'.schema.struct t).fields = [] := by
    by_cases inside : t < p.schema.structs.size
    · have fewer : waiting ⟨p.schema, t :: p.begun, t :: p.ongoing⟩ < waiting p :=
        waiting_begin inside fresh
      rw [begin] at fewer
      exact .inl (by omega)
    · rw [same, struct_of_size_le (Nat.le_of_not_lt inside)]
      exact .inr ⟨rfl, rfl⟩
  apply Within.bind
  apply (Within.forM (Grows.refl p') ?_).mono
  · intro _ q grown
    apply Within.bind
    apply (Within.forM grown ?_).mono
    · intro _ r grown
      apply Within.bind
      have expanded : Within (expandMembers descend (p'.schema.struct t).members []) r IsSemantic
          fun added r => Grows p' r ∧
            (∀ id ∈ added, p'.schema.Supplies (p'.schema.struct t).members id) ∧
            p'.schema.DistinctNames added := by
        rcases room' with room' | ⟨none, _⟩
        · exact expand_members_within descends room' grown (fun _ => id) (by simp) (distinct_nil _)
        · rw [none]
          exact Within.pure ⟨grown, by simp, distinct_nil _⟩
      apply expanded.mono
      intro added q' ⟨grown, supplied, distinct⟩
      apply Within.bind
      apply Within.modify
      apply Within.modify
      have owned : ∀ id ∈ (p'.schema.struct t).fields ++ added, p'.schema.Owns t id := by
        intro id member
        rcases List.mem_append.mp member with held | spread
        · exact owns_of_holds (.inr held)
        · exact owns_of_supplies (supplied id spread)
      have inherits := inherits_expanded grown.inherits owned
      refine ⟨grows.inherits.trans inherits, fun _ member => grown.begun (grows.begun member), ?_⟩
      intro tidy u
      have none : (p'.schema.struct t).fields = [] := by rw [same]; exact (tidy t).2 fresh
      have tidy' := grown.tidy (grows.tidy tidy) u
      rw [inherits.distinct_names]
      rw [grown.inherits.distinct_names] at tidy'
      simp only [struct_setStruct]
      split
      · next here =>
        rw [none, List.nil_append]
        refine ⟨distinct, fun later => absurd (grown.begun ?_) later⟩
        rw [here.1, ← begin]
        exact List.mem_cons_self ..
      · exact tidy'
    · intro id member r grown
      rcases room' with room' | ⟨_, none⟩
      · exact visit_field_within descends room' grown id
      · rw [none] at member
        cases member
  · intro m member q grown
    rcases room' with room' | ⟨none, _⟩
    · exact visit_member_within descends room' grown m
    · rw [none] at member
      cases member

theorem visit_base_within (fuel : Nat) :
    ∀ base p, 2 * waiting p + (if base.isEnum then 2 else 1) ≤ fuel →
      Within (visitBase fuel base) p IsSemantic fun _ q => Grows p q := by
  induction fuel with
  | zero => intro base p enough; split at enough <;> omega
  | succ fuel ih =>
    intro base p enough
    cases base with
    | primitive kind => exact Within.pure (.refl p)
    | reference name location => exact Within.pure (.refl p)
    | enum id =>
      apply Within.bind
      apply Within.get
      apply Within.forM (Grows.refl p)
      intro v _ q grows
      split
      · exact Within.pure grows
      · next t data =>
        apply (ih (.struct t) q ?_).mono
        · exact fun _ r grown => grows.trans grown
        · have := waiting_le grows
          simp [TypeBase.isEnum] at enough ⊢
          omega
    | struct t =>
      apply Within.bind
      apply Within.get
      split
      · exact Within.pure (.refl p)
      · next fresh =>
        have descends : Descends (visitBase fuel) (fuel - 1) := by
          intro base q small
          apply ih base q
          split <;> omega
        apply expand_struct_within descends
        · simpa using fresh
        · simp [TypeBase.isEnum] at enough
          omega

theorem waiting_lt_bound (p : Spreading) : 2 * waiting p + 2 ≤ bound p.schema := by
  have most := List.length_filter_le (fun t => !p.begun.contains t)
    (List.range p.schema.structs.size)
  simp only [List.length_range] at most
  simp only [waiting, bound]
  omega

theorem descends_bound (p : Spreading) : Descends (visitBase (bound p.schema)) (2 * waiting p + 1) := by
  intro base q small
  apply visit_base_within
  have := waiting_lt_bound p
  split <;> omega

theorem visit_type_within {p q : Spreading} (grows : Grows p q) (t : TypeUse) :
    Within (visitType t) q IsSemantic fun _ r => Grows p r := by
  apply Within.bind
  apply Within.get
  apply (descends_bound q t.base q (Nat.le_refl _)).mono
  exact fun _ r grown => grows.trans grown

theorem expand_operation_within {q : Spreading} (grows : Grows p q) (o : Operation) :
    Within (expandOperation o) q IsSemantic fun o' r =>
      Grows p r ∧ p.schema.OperationExpands o o' := by
  apply Within.bind
  apply Within.get
  have descends := descends_bound q
  apply Within.bind
  apply (Within.forM (Grows.refl q) fun m _ r grown =>
    visit_member_within descends (Nat.le_refl _) grown m).mono
  intro _ r grown
  apply Within.bind
  apply (Within.forM grown fun id _ r grown =>
    visit_field_within descends (Nat.le_refl _) grown id).mono
  intro _ r grown
  apply Within.bind
  apply (visit_type_within grown o.returns).mono
  intro _ r grown
  apply Within.bind
  apply (expand_members_within descends (Nat.le_refl _) grown (fun _ => id) (by simp)
    (distinct_nil _)).mono
  intro added r ⟨grown, supplied, distinct⟩
  refine Within.pure ⟨grows.trans grown, rfl, rfl, rfl, rfl, ?_, ?_⟩
  · intro id member
    rcases List.mem_append.mp member with own | spread
    · exact .inl own
    · exact .inr (grows.inherits.supplies (supplied id spread))
  · intro none
    rw [none, List.nil_append]
    exact grows.inherits.distinct_names.mp distinct

theorem expand_all_within (p : Spreading) :
    Within expandAll p IsSemantic fun _ q => ∃ r operations, Grows p r ∧
      List.Forall₂ p.schema.OperationExpands p.schema.operations operations ∧
      q.schema = { r.schema with operations } := by
  apply Within.bind
  apply Within.get
  apply Within.bind
  apply (Within.forM (Grows.refl p) fun e _ q grows => visit_type_within grows e.data).mono
  intro _ q grows
  apply Within.bind
  apply Within.get
  apply Within.bind
  apply (Within.forM grows fun d _ q grows => visit_type_within grows d.type).mono
  intro _ q grows
  apply Within.bind
  apply Within.get
  apply Within.bind
  apply (Within.mapM grows fun o _ r grows => expand_operation_within grows o).mono
  intro operations r ⟨grown, expanded⟩
  rw [grows.inherits.operations] at expanded
  exact Within.modify ⟨r, operations, grown, expanded, rfl⟩

end Spreading

namespace Schema

open Spreading

theorem expand_spreads_error {s : Schema} {e : AnalysisFailure}
    (failed : s.expandSpreads = .error e) : IsSemantic e := by
  have run := expand_all_within ⟨s, [], []⟩
  cases ran : expandAll.run ⟨s, [], []⟩ with
  | error other =>
    simp only [expandSpreads, ran] at failed
    cases failed
    exact run.of_error ran
  | ok r => simp only [expandSpreads, ran] at failed; cases failed

theorem expands_of_ok {s s' : Schema} (expanded : s.expandSpreads = .ok s') : s.Expands s' := by
  have run := expand_all_within ⟨s, [], []⟩
  cases ran : expandAll.run ⟨s, [], []⟩ with
  | error e => simp only [expandSpreads, ran] at expanded; cases expanded
  | ok r =>
    simp only [expandSpreads, ran] at expanded
    cases expanded
    obtain ⟨q, operations, grows, expands, result⟩ := run.of_ok ran
    have back : { r.2.schema with operations := s.operations } = q.schema := by
      rw [result, ← grows.inherits.operations]
    refine ⟨back ▸ grows.inherits, result ▸ expands, fun none t => ?_⟩
    have tidy : Tidy ⟨s, [], []⟩ := by
      intro u
      rw [DistinctNames, none u]
      exact ⟨List.nodup_nil, fun _ => rfl⟩
    have same : (r.2.schema.struct t).fields = (q.schema.struct t).fields := by rw [result]; rfl
    rw [same]
    exact grows.inherits.distinct_names.mp (grows.tidy tidy t).1

namespace Expands

variable {s s' : Schema}

theorem same_types (_ : s.Expands s') : SameTypes { s' with operations := s.operations } s' :=
  ⟨rfl, rfl, rfl, rfl⟩

theorem base_name (expands : s.Expands s') (base : TypeBase) : s'.baseName base = s.baseName base := by
  cases base with
  | struct t => exact expands.inherits.name t
  | enum e => exact congrArg Enum.name (expands.inherits.enum e)
  | _ => rfl

theorem nesting_bound (expands : s.Expands s') : s'.nestingBound = s.nestingBound := by
  have size : s'.structs.size = s.structs.size := expands.inherits.size
  have enums : s'.enums = s.enums := expands.inherits.enums
  rw [nestingBound, nestingBound, size, enums]

theorem reaches (expands : s.Expands s') {first last : TypeBase} (way : s'.Reaches first last) :
    s.Reaches first last :=
  expands.inherits.reaches (expands.same_types.reaches way)

theorem declares (expands : s.Expands s') {base : TypeBase}
    (declared : s'.Declares base) : s.Known base := by
  have inherits := expands.inherits
  cases declared with
  | definition member =>
    have definitions : s'.definitions = s.definitions := inherits.definitions
    exact known_of_declares (.definition (definitions ▸ member))
  | error member =>
    have errors : s'.errors = s.errors := inherits.errors
    exact known_of_declares (.error (errors ▸ member))
  | argument member held =>
    obtain ⟨o, written, expanded⟩ := exists_left expands.operations member
    rw [expands.same_types.field, inherits.field]
    rcases held with spread | arg
    · rw [expanded.members] at spread
      cases spread
    · rcases expanded.args _ arg with old | supplied
      · exact known_of_declares (.argument written (.inr old))
      · exact known_of_supplies written supplied
  | spread member held =>
    obtain ⟨o, _, expanded⟩ := exists_left expands.operations member
    rw [expanded.members] at held
    cases held
  | returns member =>
    obtain ⟨o, written, expanded⟩ := exists_left expands.operations member
    rw [expanded.returns]
    exact known_of_declares (.returns written)

theorem known (expands : s.Expands s') {base : TypeBase} (known : s'.Known base) :
    s.Known base := by
  obtain ⟨root, declared, way⟩ := known
  exact (expands.declares declared).reaches (expands.reaches way)

end Expands

end Schema

end ApiSchema
