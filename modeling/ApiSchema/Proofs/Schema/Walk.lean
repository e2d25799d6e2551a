import ApiSchema.Schema.Walk
import ApiSchema.Proofs.Schema.Nesting

/-! What a walk through a schema meets, and that it ends exactly where no type is nested in itself. -/

namespace ApiSchema

namespace Walk

variable {α : Type}

@[simp] theorem meet_ends (v : Visit) : (meet v).ends = true := rfl

@[simp] theorem nowhere_ends : nowhere.ends = true := rfl

@[simp] theorem mem_meet {v w : Visit} : v ∈ (meet w).visits ↔ v = w := List.mem_singleton

@[simp] theorem not_mem_nowhere {v : Visit} : ¬ v ∈ nowhere.visits := nofun

@[simp] theorem andThen_ends (first : Walk) (second : Unit → Walk) :
    (first.andThen second).ends = (first.ends && (second ()).ends) := by
  unfold andThen
  split <;> simp_all

@[simp] theorem each_ends (walk : α → Walk) (items : List α) :
    (each walk items).ends = items.all fun a => (walk a).ends := by
  induction items with
  | nil => rfl
  | cons a rest ih => simp [each, ih]

theorem mem_andThen {first : Walk} {second : Unit → Walk} {v : Visit}
    (ends : (first.andThen second).ends = true) :
    v ∈ (first.andThen second).visits ↔ v ∈ first.visits ∨ v ∈ (second ()).visits := by
  rw [andThen_ends, Bool.and_eq_true] at ends
  simp only [andThen, ends.1, if_true, List.mem_append]

theorem mem_each {walk : α → Walk} {items : List α} {v : Visit}
    (ends : (each walk items).ends = true) :
    v ∈ (each walk items).visits ↔ ∃ a ∈ items, v ∈ (walk a).visits := by
  induction items with
  | nil => simp [each]
  | cons a rest ih =>
    have later := ends
    rw [each, andThen_ends, Bool.and_eq_true] at later
    rw [each, mem_andThen ends, ih later.2]
    simp

end Walk

namespace Schema

/-- What is met of a base itself, and of the members and values that it is written with. -/
inductive Shows (s : Schema) : TypeBase → Visit → Prop where
  | reference {name location} : Shows s (.reference name location) (.reference name location)
  | struct {t} : Shows s (.struct t) (.struct t)
  | enum {e} : Shows s (.enum e) (.enum e)
  | field {t id} (held : s.Holds t id) : Shows s (.struct t) (.field id)
  | spread {t name nameLocation location}
    (member : Member.spread name nameLocation location ∈ (s.struct t).members) :
    Shows s (.struct t) (.reference name nameLocation)
  | value {e v} (member : v ∈ (s.enum e).values) : Shows s (.enum e) (.value v)

/-- What is met at a base or anywhere inside of it. -/
def Meets (s : Schema) (base : TypeBase) (v : Visit) : Prop :=
  ∃ part, s.Contains base part ∧ s.Shows part v

inductive Visits (s : Schema) : Visit → Prop where
  | error {e} (member : e ∈ s.errors) : Visits s (.error e)
  | definition {d} (member : d ∈ s.definitions) : Visits s (.definition d)
  | operation {o} (member : o ∈ s.operations) : Visits s (.operation o)
  | argument {o id} (member : o ∈ s.operations) (held : .field id ∈ o.members ∨ id ∈ o.args) :
    Visits s (.field id)
  | inside {base v} (declared : s.Declares base) (meets : s.Meets base v) : Visits s v

variable {s : Schema}

theorem meets_of_shows {base : TypeBase} {v : Visit} (shows_ : s.Shows base v) : s.Meets base v :=
  ⟨base, .refl, shows_⟩

theorem meets_of_nests {base part : TypeBase} {v : Visit} (nests : s.Nests base part)
    (meets : s.Meets part v) : s.Meets base v := by
  obtain ⟨inner, contains, shown⟩ := meets
  exact ⟨inner, .head nests contains, shown⟩

theorem meets_iff {base : TypeBase} {v : Visit} :
    s.Meets base v ↔ s.Shows base v ∨ ∃ part, s.Nests base part ∧ s.Meets part v := by
  constructor
  · rintro ⟨part, contains, shown⟩
    rcases Relation.ReflTransGen.cases_head contains with rfl | ⟨next, nests, further⟩
    · exact .inl shown
    · exact .inr ⟨next, nests, part, further, shown⟩
  · rintro (shown | ⟨part, nests, meets⟩)
    · exact meets_of_shows shown
    · exact meets_of_nests nests meets

section Steps

variable {descend : TypeBase → Walk}

theorem walk_field_ends {id : FieldId} :
    (s.walkField descend id).ends = true ↔ (descend (s.field id).type.base).ends = true := by
  simp [walkField]

theorem walk_member_ends {m : Member} :
    (s.walkMember descend m).ends = true ↔
      ∀ id, m = .field id → (descend (s.field id).type.base).ends = true := by
  cases m <;> simp [walkMember, walkField]

theorem walk_value_ends {v : EnumValue} :
    (walkValue descend v).ends = true ↔ ∀ t, v.data = some t → (descend (.struct t)).ends = true := by
  cases data : v.data <;> simp [walkValue, data]

theorem mem_walk_field {id : FieldId} {v : Visit} (ends : (s.walkField descend id).ends = true) :
    v ∈ (s.walkField descend id).visits ↔
      v = .field id ∨ v ∈ (descend (s.field id).type.base).visits := by
  rw [walkField, Walk.mem_andThen ends, Walk.mem_meet]

theorem mem_walk_value {w : EnumValue} {v : Visit} (ends : (walkValue descend w).ends = true) :
    v ∈ (walkValue descend w).visits ↔
      v = .value w ∨ ∃ t, w.data = some t ∧ v ∈ (descend (.struct t)).visits := by
  rw [walkValue, Walk.mem_andThen ends, Walk.mem_meet]
  cases data : w.data <;> simp

end Steps

theorem walk_base_ends (s : Schema) (fuel : Nat) :
    ∀ base, (s.walkBase fuel base).ends = true ↔ ¬ s.Deep fuel base := by
  induction fuel with
  | zero =>
    intro base
    cases base with
    | primitive kind => simp [walkBase, not_deep_primitive]
    | reference name location => simp [walkBase, not_deep_reference]
    | struct t => simp [walkBase, (Deep.here trivial : s.Deep 0 (.struct t))]
    | enum e => simp [walkBase, (Deep.here trivial : s.Deep 0 (.enum e))]
  | succ fuel ih =>
    intro base
    cases base with
    | primitive kind => simp [walkBase, not_deep_primitive]
    | reference name location => simp [walkBase, not_deep_reference]
    | struct t =>
      simp only [walkBase, Walk.andThen_ends, Walk.each_ends, Walk.meet_ends, Bool.and_true,
        Bool.and_eq_true, List.all_eq_true, walk_member_ends, walk_field_ends, ih]
      constructor
      · rintro ⟨members, fields⟩ deep
        cases deep with
        | inside nests deeper =>
          cases nests with
          | field held =>
            rcases held with member | member
            · exact members _ member _ rfl deeper
            · exact fields _ member deeper
      · intro shallow
        constructor
        · rintro m member id rfl deep
          exact shallow (.inside (.field (.inl member)) deep)
        · intro id member deep
          exact shallow (.inside (.field (.inr member)) deep)
    | enum e =>
      simp only [walkBase, Walk.andThen_ends, Walk.each_ends, Walk.meet_ends, Bool.and_true,
        List.all_eq_true, walk_value_ends, ih]
      constructor
      · intro values deep
        cases deep with
        | inside nests deeper =>
          cases nests with
          | value member data => exact values _ member _ data deeper
      · intro shallow v member t data deep
        exact shallow (.inside (.value member data) deep)

theorem walk_from_ends {base : TypeBase} : (s.walkFrom base).ends = true ↔ s.Acyclic base := by
  rw [walkFrom, walk_base_ends, acyclic_iff]

theorem not_meets_primitive {kind : Primitive} {v : Visit} : ¬ s.Meets (.primitive kind) v := by
  intro meets
  rcases meets_iff.mp meets with shown | ⟨_, nests, _⟩
  · cases shown
  · cases nests

theorem meets_reference_iff {name : String} {location : Location} {v : Visit} :
    s.Meets (.reference name location) v ↔ v = .reference name location := by
  constructor
  · intro meets
    rcases meets_iff.mp meets with shown | ⟨_, nests, _⟩
    · cases shown
      rfl
    · cases nests
  · rintro rfl
    exact meets_of_shows .reference

theorem meets_struct_iff {t : StructId} {v : Visit} :
    s.Meets (.struct t) v ↔
      (∃ m ∈ (s.struct t).members, (∃ id, m = .field id ∧
          (v = .field id ∨ s.Meets (s.field id).type.base v)) ∨
        ∃ name nameLocation location, m = .spread name nameLocation location ∧
          v = .reference name nameLocation) ∨
      (∃ id ∈ (s.struct t).fields, v = .field id ∨ s.Meets (s.field id).type.base v) ∨
      v = .struct t := by
  constructor
  · intro meets
    rcases meets_iff.mp meets with shown | ⟨_, nests, inner⟩
    · cases shown with
      | struct => exact .inr (.inr rfl)
      | field held =>
        rcases held with member | member
        · exact .inl ⟨_, member, .inl ⟨_, rfl, .inl rfl⟩⟩
        · exact .inr (.inl ⟨_, member, .inl rfl⟩)
      | spread member => exact .inl ⟨_, member, .inr ⟨_, _, _, rfl, rfl⟩⟩
    · cases nests with
      | field held =>
        rcases held with member | member
        · exact .inl ⟨_, member, .inl ⟨_, rfl, .inr inner⟩⟩
        · exact .inr (.inl ⟨_, member, .inr inner⟩)
  · have held : ∀ {id}, s.Holds t id → v = .field id ∨ s.Meets (s.field id).type.base v →
        s.Meets (.struct t) v := by
      rintro id held (rfl | inner)
      · exact meets_of_shows (.field held)
      · exact meets_of_nests (.field held) inner
    rintro (⟨m, member, ⟨id, rfl, met⟩ | ⟨_, _, _, rfl, rfl⟩⟩ | ⟨id, member, met⟩ | rfl)
    · exact held (.inl member) met
    · exact meets_of_shows (.spread member)
    · exact held (.inr member) met
    · exact meets_of_shows .struct

theorem meets_enum_iff {e : EnumId} {v : Visit} :
    s.Meets (.enum e) v ↔
      (∃ w ∈ (s.enum e).values, v = .value w ∨ ∃ t, w.data = some t ∧ s.Meets (.struct t) v) ∨
        v = .enum e := by
  constructor
  · intro meets
    rcases meets_iff.mp meets with shown | ⟨_, nests, inner⟩
    · cases shown with
      | enum => exact .inr rfl
      | value member => exact .inl ⟨_, member, .inl rfl⟩
    · cases nests with
      | value member data => exact .inl ⟨_, member, .inr ⟨_, data, inner⟩⟩
  · rintro (⟨w, member, rfl | ⟨t, data, inner⟩⟩ | rfl)
    · exact meets_of_shows (.value member)
    · exact meets_of_nests (.value member data) inner
    · exact meets_of_shows .enum

theorem mem_walk_base (fuel : Nat) :
    ∀ {base v}, (s.walkBase fuel base).ends = true →
      (v ∈ (s.walkBase fuel base).visits ↔ s.Meets base v) := by
  induction fuel with
  | zero =>
    intro base v ends
    cases base with
    | primitive kind => simp [walkBase, not_meets_primitive]
    | reference name location => simp [walkBase, meets_reference_iff]
    | _ => cases ends
  | succ fuel ih =>
    intro base v ends
    cases base with
    | primitive kind => simp [walkBase, not_meets_primitive]
    | reference name location => simp [walkBase, meets_reference_iff]
    | struct t =>
      have parts := ends
      simp only [walkBase, Walk.andThen_ends, Bool.and_eq_true] at parts
      obtain ⟨members, fields, _⟩ := parts
      have rest : ((Walk.each (s.walkField (s.walkBase fuel)) (s.struct t).fields).andThen
          fun _ => Walk.meet (.struct t)).ends = true := by
        rw [Walk.andThen_ends, fields, Walk.meet_ends, Bool.and_self]
      rw [meets_struct_iff, walkBase, Walk.mem_andThen ends, Walk.mem_each members,
        Walk.mem_andThen rest, Walk.mem_each fields, Walk.mem_meet]
      rw [Walk.each_ends, List.all_eq_true] at members fields
      apply or_congr
      · apply exists_congr
        intro m
        apply and_congr_right
        intro member
        cases m with
        | field id =>
          have inner : (s.walkField (s.walkBase fuel) id).ends = true := members _ member
          rw [walkMember, mem_walk_field inner, ih (walk_field_ends.mp inner)]
          simp
        | spread name nameLocation location => simp [walkMember]
      · apply or_congr_left
        apply exists_congr
        intro id
        apply and_congr_right
        intro member
        rw [mem_walk_field (fields _ member), ih (walk_field_ends.mp (fields _ member))]
    | enum e =>
      have values := ends
      simp only [walkBase, Walk.andThen_ends, Bool.and_eq_true] at values
      obtain ⟨values, _⟩ := values
      rw [meets_enum_iff, walkBase, Walk.mem_andThen ends, Walk.mem_each values, Walk.mem_meet]
      rw [Walk.each_ends, List.all_eq_true] at values
      apply or_congr_left
      apply exists_congr
      intro w
      apply and_congr_right
      intro member
      rw [mem_walk_value (values _ member)]
      apply or_congr_right
      apply exists_congr
      intro t
      apply and_congr_right
      intro data
      exact ih (walk_value_ends.mp (values _ member) t data)

theorem mem_walk_from {base : TypeBase} {v : Visit} (ends : (s.walkFrom base).ends = true) :
    v ∈ (s.walkFrom base).visits ↔ s.Meets base v :=
  mem_walk_base _ ends

theorem walk_operation_ends {o : Operation} :
    (s.walkOperation o).ends = true ↔
      (∀ id, .field id ∈ o.members ∨ id ∈ o.args → s.Acyclic (s.field id).type.base) ∧
        s.Acyclic o.returns.base := by
  simp only [walkOperation, Walk.andThen_ends, Walk.each_ends, Walk.meet_ends, Bool.true_and,
    Bool.and_eq_true, List.all_eq_true, walk_member_ends, walk_field_ends, walk_from_ends]
  constructor
  · rintro ⟨members, args, returns⟩
    refine ⟨?_, returns⟩
    rintro id (member | member)
    · exact members _ member id rfl
    · exact args id member
  · rintro ⟨held, returns⟩
    refine ⟨?_, fun id member => held id (.inr member), returns⟩
    rintro _ member id rfl
    exact held id (.inl member)

theorem walk_ends : s.walk.ends = true ↔ s.Grounded := by
  simp only [walk, Walk.andThen_ends, Walk.each_ends, Walk.meet_ends, Bool.true_and,
    Bool.and_eq_true, List.all_eq_true, walk_operation_ends, walk_from_ends]
  constructor
  · rintro ⟨errors, definitions, operations⟩ base declared
    cases declared with
    | definition member => exact definitions _ member
    | error member => exact errors _ member
    | argument member held => exact (operations _ member).1 _ held
    | spread member held => exact acyclic_of_not_deep (not_deep_reference 0 _ _)
    | returns member => exact (operations _ member).2
  · intro grounded
    exact ⟨fun e member => grounded _ (.error member),
      fun d member => grounded _ (.definition member),
      fun o member => ⟨fun id held => grounded _ (.argument member held),
        grounded _ (.returns member)⟩⟩

theorem mem_walk_operation {o : Operation} {v : Visit} (ends : (s.walkOperation o).ends = true) :
    v ∈ (s.walkOperation o).visits ↔
      v = .operation o ∨
        (∃ m ∈ o.members, v ∈ (s.walkMember s.walkFrom m).visits) ∨
        (∃ id ∈ o.args, v ∈ (s.walkField s.walkFrom id).visits) ∨
        v ∈ (s.walkFrom o.returns.base).visits := by
  have parts := ends
  simp only [walkOperation, Walk.andThen_ends, Bool.and_eq_true] at parts
  obtain ⟨_, members, args, returns⟩ := parts
  have last : ((Walk.each (s.walkField s.walkFrom) o.args).andThen fun _ =>
      s.walkFrom o.returns.base).ends = true := by
    rw [Walk.andThen_ends, args, returns, Bool.and_self]
  have rest : ((Walk.each (s.walkMember s.walkFrom) o.members).andThen fun _ =>
      (Walk.each (s.walkField s.walkFrom) o.args).andThen fun _ =>
        s.walkFrom o.returns.base).ends = true := by
    rw [Walk.andThen_ends, members, last, Bool.and_self]
  rw [walkOperation, Walk.mem_andThen ends, Walk.mem_meet, Walk.mem_andThen rest,
    Walk.mem_each members, Walk.mem_andThen last, Walk.mem_each args]

theorem mem_walk_operation_iff {o : Operation} {v : Visit} (grounded : s.Grounded)
    (member : o ∈ s.operations) :
    v ∈ (s.walkOperation o).visits ↔
      v = .operation o ∨
        (∃ id, (.field id ∈ o.members ∨ id ∈ o.args) ∧
          (v = .field id ∨ s.Meets (s.field id).type.base v)) ∨
        (∃ name nameLocation location, Member.spread name nameLocation location ∈ o.members ∧
          v = .reference name nameLocation) ∨
        s.Meets o.returns.base v := by
  have ends : (s.walkOperation o).ends = true := walk_operation_ends.mpr
    ⟨fun id held => grounded _ (.argument member held), grounded _ (.returns member)⟩
  have field : ∀ {id}, (.field id ∈ o.members ∨ id ∈ o.args) →
      (v ∈ (s.walkField s.walkFrom id).visits ↔
        v = .field id ∨ s.Meets (s.field id).type.base v) := by
    intro id held
    have acyclic := walk_from_ends.mpr (grounded _ (.argument member held))
    rw [mem_walk_field (walk_field_ends.mpr acyclic), mem_walk_from acyclic]
  rw [mem_walk_operation ends,
    mem_walk_from (walk_from_ends.mpr (grounded _ (.returns member)))]
  constructor
  · rintro (here | ⟨m, held, met⟩ | ⟨id, held, met⟩ | met)
    · exact .inl here
    · cases m with
      | field id => exact .inr (.inl ⟨id, .inl held, (field (.inl held)).mp met⟩)
      | spread name nameLocation location =>
        exact .inr (.inr (.inl ⟨_, _, _, held, Walk.mem_meet.mp met⟩))
    · exact .inr (.inl ⟨id, .inr held, (field (.inr held)).mp met⟩)
    · exact .inr (.inr (.inr met))
  · rintro (here | ⟨id, held, met⟩ | ⟨name, nameLocation, location, held, here⟩ | met)
    · exact .inl here
    · have met := (field held).mpr met
      rcases held with held | held
      · exact .inr (.inl ⟨_, held, met⟩)
      · exact .inr (.inr (.inl ⟨id, held, met⟩))
    · exact .inr (.inl ⟨_, held, Walk.mem_meet.mpr here⟩)
    · exact .inr (.inr (.inr met))

theorem mem_walk {v : Visit} (grounded : s.Grounded) : v ∈ s.walk.visits ↔ s.Visits v := by
  have ends := walk_ends.mpr grounded
  have parts := ends
  simp only [walk, Walk.andThen_ends, Bool.and_eq_true] at parts
  obtain ⟨errors, definitions, operations⟩ := parts
  have rest : ((Walk.each (fun d => (Walk.meet (.definition d)).andThen fun _ =>
      s.walkFrom d.type.base) s.definitions).andThen fun _ =>
        Walk.each s.walkOperation s.operations).ends = true := by
    rw [Walk.andThen_ends, definitions, operations, Bool.and_self]
  rw [walk, Walk.mem_andThen ends, Walk.mem_each errors, Walk.mem_andThen rest,
    Walk.mem_each definitions, Walk.mem_each operations]
  rw [Walk.each_ends, List.all_eq_true] at errors definitions
  have inside : ∀ {base}, s.Declares base →
      (v ∈ (s.walkFrom base).visits ↔ s.Meets base v) :=
    fun declared => mem_walk_from (walk_from_ends.mpr (grounded _ declared))
  constructor
  · rintro (⟨e, member, met⟩ | ⟨d, member, met⟩ | ⟨o, member, met⟩)
    · rw [Walk.mem_andThen (errors e member), Walk.mem_meet, inside (.error member)] at met
      rcases met with rfl | met
      · exact .error member
      · exact .inside (.error member) met
    · rw [Walk.mem_andThen (definitions d member), Walk.mem_meet, inside (.definition member)] at met
      rcases met with rfl | met
      · exact .definition member
      · exact .inside (.definition member) met
    · rw [mem_walk_operation_iff grounded member] at met
      rcases met with rfl | ⟨id, held, rfl | met⟩ | ⟨_, _, _, held, rfl⟩ | met
      · exact .operation member
      · exact .argument member held
      · exact .inside (.argument member held) met
      · exact .inside (.spread member held) (meets_of_shows .reference)
      · exact .inside (.returns member) met
  · intro visited
    cases visited with
    | error member =>
      exact .inl ⟨_, member, (Walk.mem_andThen (errors _ member)).mpr (.inl (Walk.mem_meet.mpr rfl))⟩
    | definition member =>
      exact .inr (.inl ⟨_, member,
        (Walk.mem_andThen (definitions _ member)).mpr (.inl (Walk.mem_meet.mpr rfl))⟩)
    | operation member =>
      exact .inr (.inr ⟨_, member, (mem_walk_operation_iff grounded member).mpr (.inl rfl)⟩)
    | argument member held =>
      exact .inr (.inr ⟨_, member,
        (mem_walk_operation_iff grounded member).mpr (.inr (.inl ⟨_, held, .inl rfl⟩))⟩)
    | inside declared meets =>
      cases declared with
      | error member =>
        exact .inl ⟨_, member,
          (Walk.mem_andThen (errors _ member)).mpr (.inr ((inside (.error member)).mpr meets))⟩
      | definition member =>
        exact .inr (.inl ⟨_, member, (Walk.mem_andThen (definitions _ member)).mpr
          (.inr ((inside (.definition member)).mpr meets))⟩)
      | argument member held =>
        exact .inr (.inr ⟨_, member,
          (mem_walk_operation_iff grounded member).mpr (.inr (.inl ⟨_, held, .inr meets⟩))⟩)
      | spread member held =>
        exact .inr (.inr ⟨_, member, (mem_walk_operation_iff grounded member).mpr
          (.inr (.inr (.inl ⟨_, _, _, held, meets_reference_iff.mp meets⟩)))⟩)
      | returns member =>
        exact .inr (.inr ⟨_, member,
          (mem_walk_operation_iff grounded member).mpr (.inr (.inr (.inr meets)))⟩)

namespace SameTypes

variable {s' : Schema}

theorem walk_field (same : SameTypes s s') : s'.walkField = s.walkField := by
  funext descend id
  rw [walkField, walkField, same.field]

theorem walk_member (same : SameTypes s s') : s'.walkMember = s.walkMember := by
  funext descend m
  cases m with
  | field id => rw [walkMember, walkMember, same.walk_field]
  | spread => rfl

theorem walk_base (same : SameTypes s s') (fuel : Nat) : s'.walkBase fuel = s.walkBase fuel := by
  induction fuel with
  | zero =>
    funext base
    cases base <;> rfl
  | succ fuel ih =>
    funext base
    cases base with
    | struct t => simp only [walkBase, same.struct, same.walk_member, same.walk_field, ih]
    | enum e => simp only [walkBase, same.enum, ih]
    | _ => rfl

theorem walk_from (same : SameTypes s s') : s'.walkFrom = s.walkFrom := by
  funext base
  rw [walkFrom, walkFrom, same.nesting_bound, same.walk_base]

theorem walk_operation (same : SameTypes s s') : s'.walkOperation = s.walkOperation := by
  funext o
  simp only [walkOperation, same.walk_member, same.walk_field, same.walk_from]

end SameTypes

end Schema

end ApiSchema
