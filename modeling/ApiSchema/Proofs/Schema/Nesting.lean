import ApiSchema.Proofs.Schema.Leading
import Mathlib.Data.List.Nodup
import Mathlib.Data.List.Perm.Subperm

/-! Types nested in each other, without the references between them. What is nested deeper than there
are types is nested in itself. -/

namespace ApiSchema

def TypeBase.IsNested : TypeBase → Prop
  | .struct _ | .enum _ => True
  | _ => False

instance : DecidablePred TypeBase.IsNested
  | .struct _ | .enum _ => .isTrue trivial
  | .primitive _ | .reference .. => .isFalse id

namespace Schema

/-- One step to a type that is written inside of another one. -/
inductive Nests (s : Schema) : TypeBase → TypeBase → Prop where
  | field {t id} (held : s.Holds t id) : Nests s (.struct t) (s.field id).type.base
  | value {e v t} (member : v ∈ (s.enum e).values) (data : v.data = some t) :
    Nests s (.enum e) (.struct t)

/-- One step to a type that is written inside of another one, at a field or a value of some name. -/
inductive NestsAs (s : Schema) : TypeBase → String → TypeBase → Prop where
  | field {t id} (held : s.Holds t id) : NestsAs s (.struct t) (s.field id).name (s.field id).type.base
  | value {e v t} (member : v ∈ (s.enum e).values) (data : v.data = some t) :
    NestsAs s (.enum e) v.text (.struct t)

abbrev Contains (s : Schema) : TypeBase → TypeBase → Prop := Relation.ReflTransGen s.Nests

abbrev ProperlyContains (s : Schema) : TypeBase → TypeBase → Prop := Relation.TransGen s.Nests

/-- The nesting that begins at a type goes at least so many steps down. -/
inductive Deep (s : Schema) : Nat → TypeBase → Prop where
  | here {base} (nested : base.IsNested) : Deep s 0 base
  | inside {n base part} (nests : s.Nests base part) (deeper : Deep s n part) : Deep s (n + 1) base

/-- Nothing behind a type is nested in itself. -/
def Acyclic (s : Schema) (base : TypeBase) : Prop :=
  ∀ part, s.Contains base part → ¬ s.ProperlyContains part part

/-- No declaration is written with a type that is nested in itself. -/
def Grounded (s : Schema) : Prop := ∀ base, s.Declares base → s.Acyclic base

variable {s : Schema}

theorem Nests.leads {first next : TypeBase} (nests : s.Nests first next) : s.Leads first next := by
  cases nests with
  | field held => exact .field held
  | value member data => exact .value member data

theorem NestsAs.nests {base part : TypeBase} {label : String}
    (nests : s.NestsAs base label part) : s.Nests base part := by
  cases nests with
  | field held => exact .field held
  | value member data => exact .value member data

theorem Nests.exists_label {base part : TypeBase} (nests : s.Nests base part) :
    ∃ label, s.NestsAs base label part := by
  cases nests with
  | field held => exact ⟨_, .field held⟩
  | value member data => exact ⟨_, .value member data⟩

theorem Nests.nested {first next : TypeBase} (nests : s.Nests first next) : first.IsNested := by
  cases nests <;> trivial

theorem Contains.reaches {first next : TypeBase} (contains : s.Contains first next) :
    s.Reaches first next :=
  Relation.ReflTransGen.mono (fun _ _ => Nests.leads) _ _ contains

namespace SameTypes

variable {s' : Schema}

theorem nests (same : SameTypes s s') {first next : TypeBase} (nests : s'.Nests first next) :
    s.Nests first next := by
  cases nests with
  | field held =>
    rw [same.field]
    exact .field (same.holds.mp held)
  | value member data => exact .value (same.enum _ ▸ member) data

theorem acyclic (same : SameTypes s s') {base : TypeBase} (acyclic : s.Acyclic base) :
    s'.Acyclic base := by
  intro part contains cycle
  exact acyclic part (Relation.ReflTransGen.mono (fun _ _ => same.nests) _ _ contains)
    (Relation.TransGen.mono (fun _ _ => same.nests) _ _ cycle)

end SameTypes

theorem enum_inside {e : EnumId} {v : EnumValue} (member : v ∈ (s.enum e).values) :
    e < s.enums.size := by
  by_contra outside
  rw [enum_of_size_le (Nat.le_of_not_lt outside)] at member
  cases member

namespace Deep

theorem down {n : Nat} {base : TypeBase} (deep : s.Deep (n + 1) base) : s.Deep n base := by
  induction n generalizing base with
  | zero =>
    cases deep with
    | inside nests _ => exact .here nests.nested
  | succ n ih =>
    cases deep with
    | inside nests deeper => exact .inside nests (ih deeper)

theorem of_le {m n : Nat} {base : TypeBase} (le : m ≤ n) (deep : s.Deep n base) :
    s.Deep m base := by
  induction le with
  | refl => exact deep
  | step _ ih => exact ih deep.down

theorem of_contains {n : Nat} {base part : TypeBase} (contains : s.Contains base part)
    (deep : s.Deep n part) : s.Deep n base := by
  induction contains using Relation.ReflTransGen.head_induction_on with
  | refl => exact deep
  | head nests _ ih => exact (Deep.inside nests ih).down

theorem of_cycle {base : TypeBase} (cycle : s.ProperlyContains base base) (n : Nat) :
    s.Deep n base := by
  obtain ⟨next, nests, back⟩ := Relation.TransGen.head'_iff.mp cycle
  induction n with
  | zero => exact .here nests.nested
  | succ n ih => exact .inside nests (of_contains back ih)

end Deep

theorem not_deep_primitive (n : Nat) (kind : Primitive) : ¬ s.Deep n (.primitive kind) := by
  rintro (nested | ⟨nests, _⟩)
  · exact nested
  · cases nests

theorem not_deep_reference (n : Nat) (name : String) (location : Location) :
    ¬ s.Deep n (.reference name location) := by
  rintro (nested | ⟨nests, _⟩)
  · exact nested
  · cases nests

def nodes (s : Schema) : List TypeBase :=
  (List.range s.structs.size).map .struct ++ (List.range s.enums.size).map .enum

theorem Nests.mem_nodes {first next : TypeBase} (nests : s.Nests first next) :
    first ∈ s.nodes := by
  cases nests with
  | field held => simp [nodes, holds_inside held]
  | value member data => simp [nodes, enum_inside member]

theorem nodes_length (s : Schema) : s.nodes.length + 1 = s.nestingBound := by
  simp [nodes, nestingBound]

theorem Deep.chain {n : Nat} {base : TypeBase} (deep : s.Deep n base) :
    ∃ parts : List TypeBase, parts.length = n ∧ parts.Pairwise s.ProperlyContains ∧
      ∀ part ∈ parts, part ∈ s.nodes ∧ s.Contains base part := by
  induction deep with
  | here _ => exact ⟨[], rfl, .nil, by simp⟩
  | @inside n base part nests _ ih =>
    obtain ⟨parts, length, ordered, known⟩ := ih
    refine ⟨base :: parts, by simp [length], ?_, ?_⟩
    · exact .cons (fun later member => .head' nests (known later member).2) ordered
    · intro other member
      rcases List.mem_cons.mp member with same | later
      · subst same
        exact ⟨nests.mem_nodes, .refl⟩
      · exact ⟨(known other later).1, .head nests (known other later).2⟩

theorem not_deep_of_acyclic {base : TypeBase} (acyclic : s.Acyclic base) :
    ¬ s.Deep s.nestingBound base := by
  intro deep
  obtain ⟨parts, length, ordered, known⟩ := deep.chain
  have distinct : parts.Nodup := by
    apply ordered.imp_of_mem
    intro first later member _ contains same
    exact acyclic first (known first member).2 (same ▸ contains)
  have fits : parts.length ≤ s.nodes.length :=
    (List.subperm_of_subset distinct fun part member => (known part member).1).length_le
  have := s.nodes_length
  omega

theorem acyclic_of_not_deep {n : Nat} {base : TypeBase} (shallow : ¬ s.Deep n base) :
    s.Acyclic base := by
  intro part contains cycle
  exact shallow (.of_contains contains (.of_cycle cycle n))

theorem acyclic_iff {base : TypeBase} : s.Acyclic base ↔ ¬ s.Deep s.nestingBound base :=
  ⟨not_deep_of_acyclic, acyclic_of_not_deep⟩

end Schema

end ApiSchema
