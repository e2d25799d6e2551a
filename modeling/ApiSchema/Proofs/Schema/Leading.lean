import ApiSchema.Schema
import Mathlib.Logic.Relation
import Mathlib.Tactic.Common

/-! What a type leads to: its parts, the fields it spreads, and the types that it refers to. -/

namespace ApiSchema

def TypeBase.isEnum : TypeBase → Bool
  | .enum _ => true
  | _ => false

theorem set_own {α : Type} {items : Array α} {n : Nat} {a : α}
    (own : ∀ inside : n < items.size, items[n] = a) : items.setIfInBounds n a = items := by
  apply Array.ext (Array.size_setIfInBounds ..)
  intro i first second
  rw [Array.getElem_setIfInBounds second]
  split
  · next same =>
    subst same
    exact (own second).symm
  · rfl

namespace Schema

theorem struct_of_size_le {s : Schema} {t : StructId} (outside : s.structs.size ≤ t) :
    s.struct t = default := by
  simp [struct, Array.getElem?_eq_none outside]

theorem enum_of_size_le {s : Schema} {e : EnumId} (outside : s.enums.size ≤ e) :
    s.enum e = default := by
  simp [enum, Array.getElem?_eq_none outside]

theorem field_of_size_le {s : Schema} {id : FieldId} (outside : s.fields.size ≤ id) :
    s.field id = default := by
  simp [field, Array.getElem?_eq_none outside]

theorem struct_mem {s : Schema} {t : StructId} (inside : t < s.structs.size) :
    s.struct t ∈ s.structs.toList := by
  simp [struct, inside]

theorem field_mem {s : Schema} {id : FieldId} (inside : id < s.fields.size) :
    s.field id ∈ s.fields.toList := by
  simp [field, inside]

theorem struct_setStruct (s : Schema) (t u : StructId) (r : Struct) :
    (s.setStruct t r).struct u = if u = t ∧ t < s.structs.size then r else s.struct u := by
  simp only [setStruct, struct, Array.getElem?_setIfInBounds]
  grind

theorem enum_setEnum (s : Schema) (e i : EnumId) (r : Enum) :
    (s.setEnum e r).enum i = if i = e ∧ e < s.enums.size then r else s.enum i := by
  simp only [setEnum, enum, Array.getElem?_setIfInBounds]
  grind

theorem field_setField (s : Schema) (id other : FieldId) (f : Field) :
    (s.setField id f).field other = if other = id ∧ id < s.fields.size then f else s.field other := by
  simp only [setField, field, Array.getElem?_setIfInBounds]
  grind

theorem set_struct_self (s : Schema) (t : StructId) : s.setStruct t (s.struct t) = s := by
  rw [setStruct, set_own fun inside => by simp [struct, inside]]

theorem set_enum_self (s : Schema) (e : EnumId) : s.setEnum e (s.enum e) = s := by
  rw [setEnum, set_own fun inside => by simp [enum, inside]]

theorem set_field_self (s : Schema) (id : FieldId) : s.setField id (s.field id) = s := by
  rw [setField, set_own fun inside => by simp [field, inside]]

/-- A field of a struct, written in it or put there for a spread. -/
def Holds (s : Schema) (t : StructId) (id : FieldId) : Prop :=
  .field id ∈ (s.struct t).members ∨ id ∈ (s.struct t).fields

/-- One step from a type into what it is made of or refers to, whatever suffixes are around it. -/
inductive Leads (s : Schema) : TypeBase → TypeBase → Prop where
  | reference {name location d} (defined : s.definition? name = some d) :
    Leads s (.reference name location) d.type.base
  | field {t id} (held : s.Holds t id) : Leads s (.struct t) (s.field id).type.base
  | spread {t name nameLocation location}
    (member : Member.spread name nameLocation location ∈ (s.struct t).members) :
    Leads s (.struct t) (.reference name nameLocation)
  | value {e v t} (member : v ∈ (s.enum e).values) (data : v.data = some t) :
    Leads s (.enum e) (.struct t)

/-- A type that a declaration is written with. -/
inductive Declares (s : Schema) : TypeBase → Prop where
  | definition {d} (member : d ∈ s.definitions) : Declares s d.type.base
  | error {e} (member : e ∈ s.errors) : Declares s e.data.base
  | argument {o id} (member : o ∈ s.operations) (held : .field id ∈ o.members ∨ id ∈ o.args) :
    Declares s (s.field id).type.base
  | spread {o name nameLocation location} (member : o ∈ s.operations)
    (held : Member.spread name nameLocation location ∈ o.members) :
    Declares s (.reference name nameLocation)
  | returns {o} (member : o ∈ s.operations) : Declares s o.returns.base

abbrev Reaches (s : Schema) : TypeBase → TypeBase → Prop := Relation.ReflTransGen s.Leads

/-- A type that lies behind some declaration. -/
def Known (s : Schema) (base : TypeBase) : Prop := ∃ root, s.Declares root ∧ s.Reaches root base

/-- A field that a struct has, or comes to have through what it leads to. -/
def Owns (s : Schema) (t : StructId) (id : FieldId) : Prop :=
  ∃ u, s.Reaches (.struct t) (.struct u) ∧ s.Holds u id

theorem holds_inside {s : Schema} {t : StructId} {id : FieldId} (held : s.Holds t id) :
    t < s.structs.size := by
  by_contra outside
  have empty := struct_of_size_le (Nat.le_of_not_lt outside)
  rcases held with member | member <;> rw [empty] at member <;> cases member

theorem spread_inside {s : Schema} {t : StructId} {name : String} {nameLocation location : Location}
    (member : Member.spread name nameLocation location ∈ (s.struct t).members) :
    t < s.structs.size := by
  by_contra outside
  rw [struct_of_size_le (Nat.le_of_not_lt outside)] at member
  cases member

theorem known_of_declares {s : Schema} {base : TypeBase} (declared : s.Declares base) :
    s.Known base :=
  ⟨base, declared, .refl⟩

theorem Known.reaches {s : Schema} {first last : TypeBase} (known : s.Known first)
    (reaches : s.Reaches first last) : s.Known last := by
  obtain ⟨root, declared, way⟩ := known
  exact ⟨root, declared, way.trans reaches⟩

theorem Known.induction {s : Schema} {motive : TypeBase → Prop}
    (declared : ∀ base, s.Declares base → motive base)
    (leads : ∀ first next, motive first → s.Leads first next → motive next)
    {base : TypeBase} (known : s.Known base) : motive base := by
  obtain ⟨root, start, way⟩ := known
  induction way with
  | refl => exact declared _ start
  | tail _ step ih => exact leads _ _ ih step

theorem owns_of_holds {s : Schema} {t : StructId} {id : FieldId} (held : s.Holds t id) :
    s.Owns t id :=
  ⟨t, .refl, held⟩

theorem owns_of_reaches {s : Schema} {t u : StructId} {id : FieldId}
    (reaches : s.Reaches (.struct t) (.struct u)) (owned : s.Owns u id) : s.Owns t id := by
  obtain ⟨v, further, held⟩ := owned
  exact ⟨v, reaches.trans further, held⟩

theorem Owns.reaches {s : Schema} {t : StructId} {id : FieldId} (owned : s.Owns t id) :
    s.Reaches (.struct t) (s.field id).type.base := by
  obtain ⟨u, reaches, held⟩ := owned
  exact reaches.tail (.field held)

theorem definition_congr {s s' : Schema} (same : s'.definitions = s.definitions) (name : String) :
    s'.definition? name = s.definition? name := by
  rw [definition?, definition?, same]

theorem resolve_congr {s s' : Schema} (same : s'.definitions = s.definitions) (name : String) :
    s'.resolve name = s.resolve name := by
  have link : s'.link = s.link := by
    funext other
    rw [link, link, definition_congr same]
  rw [resolve, resolve, link, same]

/-- Two schemas of the same types, whatever uses them. -/
structure SameTypes (s s' : Schema) : Prop where
  structs : s'.structs = s.structs
  enums : s'.enums = s.enums
  fields : s'.fields = s.fields
  definitions : s'.definitions = s.definitions

namespace SameTypes

variable {s s' : Schema}

theorem symm (same : SameTypes s s') : SameTypes s' s :=
  ⟨same.structs.symm, same.enums.symm, same.fields.symm, same.definitions.symm⟩

theorem struct (same : SameTypes s s') (t : StructId) : s'.struct t = s.struct t := by
  rw [Schema.struct, Schema.struct, same.structs]

theorem enum (same : SameTypes s s') (e : EnumId) : s'.enum e = s.enum e := by
  rw [Schema.enum, Schema.enum, same.enums]

theorem field (same : SameTypes s s') (id : FieldId) : s'.field id = s.field id := by
  rw [Schema.field, Schema.field, same.fields]

theorem nesting_bound (same : SameTypes s s') : s'.nestingBound = s.nestingBound := by
  rw [nestingBound, nestingBound, same.structs, same.enums]

theorem definition? (same : SameTypes s s') (name : String) :
    s'.definition? name = s.definition? name :=
  definition_congr same.definitions name

theorem resolve (same : SameTypes s s') (name : String) : s'.resolve name = s.resolve name :=
  resolve_congr same.definitions name

theorem holds (same : SameTypes s s') {t : StructId} {id : FieldId} :
    s'.Holds t id ↔ s.Holds t id := by
  rw [Holds, Holds, same.struct]

theorem leads (same : SameTypes s s') {first next : TypeBase} (leads : s'.Leads first next) :
    s.Leads first next := by
  cases leads with
  | reference defined => exact .reference (same.definition? _ ▸ defined)
  | field held =>
    rw [same.field]
    exact .field (same.holds.mp held)
  | spread member => exact .spread (same.struct _ ▸ member)
  | value member data => exact .value (same.enum _ ▸ member) data

theorem reaches (same : SameTypes s s') {first last : TypeBase} (way : s'.Reaches first last) :
    s.Reaches first last :=
  Relation.ReflTransGen.mono (fun _ _ => same.leads) _ _ way

end SameTypes

theorem chase_reaches {s : Schema} {type : TypeUse} (fuel : Nat) :
    ∀ {name}, Link.chase s.link fuel name = .target type →
      ∀ location, s.Reaches (.reference name location) type.base := by
  induction fuel with
  | zero => intro name found; cases found
  | succ fuel ih =>
    intro name found location
    simp only [Link.chase] at found
    split at found
    · cases found
    · next next onward =>
      unfold link at onward
      split at onward
      · cases onward
      · next d defined =>
        split at onward
        · next between written =>
          cases onward
          have first : s.Leads (.reference name location) _ := .reference defined
          rw [written] at first
          exact .head first (ih found _)
        · cases onward
    · next target =>
      cases found
      unfold link at target
      split at target
      · cases target
      · next d defined =>
        split at target
        · cases target
        · cases target
          exact .single (.reference defined)

theorem resolve_reaches {s : Schema} {name : String} {type : TypeUse}
    (resolved : s.resolve name = .ok type) (location : Location) :
    s.Reaches (.reference name location) type.base := by
  unfold resolve at resolved
  cases chain : Link.chase s.link (s.definitions.length + 1) name with
  | target found =>
    rw [chain] at resolved
    cases resolved
    exact chase_reaches _ chain location
  | unbound last => rw [chain] at resolved; cases resolved
  | endless => rw [chain] at resolved; cases resolved

theorem chase_defined {s : Schema} {type : TypeUse} (fuel : Nat) :
    ∀ {name}, Link.chase s.link fuel name = .target type → ∃ d ∈ s.definitions, d.type = type := by
  induction fuel with
  | zero => intro name found; cases found
  | succ fuel ih =>
    intro name found
    simp only [Link.chase] at found
    split at found
    · cases found
    · exact ih found
    · next target =>
      cases found
      unfold link at target
      split at target
      · cases target
      · next d defined =>
        split at target
        · cases target
        · cases target
          exact ⟨d, List.mem_of_find?_eq_some defined, rfl⟩

theorem resolve_defined {s : Schema} {name : String} {type : TypeUse}
    (resolved : s.resolve name = .ok type) : ∃ d ∈ s.definitions, d.type = type := by
  unfold resolve at resolved
  cases chain : Link.chase s.link (s.definitions.length + 1) name with
  | target found =>
    rw [chain] at resolved
    cases resolved
    exact chase_defined _ chain
  | unbound last => rw [chain] at resolved; cases resolved
  | endless => rw [chain] at resolved; cases resolved

end Schema

end ApiSchema
