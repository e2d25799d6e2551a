import ApiSchema.Proofs.Analysis.Collection
import ApiSchema.Proofs.Analysis.Expansion

/-! The form of an accepted schema: references are bound, spreads are gone, nothing is empty or
repeated, and the structs are listed from the inside out. -/

namespace ApiSchema

theorem Walk.andThen_assoc (first : Walk) (second third : Unit → Walk) :
    (first.andThen second).andThen third = first.andThen fun _ => (second ()).andThen third := by
  obtain ⟨visits, ends⟩ := first
  cases ends with
  | false => rfl
  | true =>
    simp only [andThen, if_true]
    split <;> simp [*]

namespace Schema

variable {s : Schema}

theorem structs_met_append (visits visits' : List Visit) :
    structsMet (visits ++ visits') = structsMet visits ++ structsMet visits' :=
  List.filterMap_append

theorem mem_structs_met {visits : List Visit} {t : StructId} :
    t ∈ structsMet visits ↔ .struct t ∈ visits := by
  constructor
  · intro met
    obtain ⟨v, member, same⟩ := List.mem_filterMap.mp met
    cases v <;> cases same
    exact member
  · exact fun member => List.mem_filterMap.mpr ⟨_, member, rfl⟩

/-- Wherever a struct is listed, the structs nested in it are listed before. -/
def InsideOut (s : Schema) (ids : List StructId) : Prop :=
  ∀ before t after, ids = before ++ t :: after →
    ∀ u, s.ProperlyContains (.struct t) (.struct u) → u ∈ before

namespace InsideOut

theorem nil : s.InsideOut [] := fun _ _ _ split => by simp at split

theorem append {ids ids' : List StructId} (first : s.InsideOut ids) (second : s.InsideOut ids') :
    s.InsideOut (ids ++ ids') := by
  intro before t after split u inside
  rcases List.append_eq_append_iff.mp split with ⟨middle, rfl, rest⟩ | ⟨middle, whole, rest⟩
  · exact List.mem_append_right _ (second middle t after rest u inside)
  · cases middle with
    | nil => exact absurd (second [] t after rest.symm u inside) List.not_mem_nil
    | cons v middle =>
      cases rest
      exact first before t middle whole u inside

theorem single {before : List StructId} {t : StructId} (ordered : s.InsideOut before)
    (listed : ∀ u, s.ProperlyContains (.struct t) (.struct u) → u ∈ before) :
    s.InsideOut (before ++ [t]) := by
  intro before' v after split u inside
  rcases List.append_eq_append_iff.mp split with ⟨middle, rfl, rest⟩ | ⟨middle, whole, rest⟩
  · cases middle with
    | nil =>
      cases rest
      simpa using listed u inside
    | cons w middle => simp at rest
  · cases middle with
    | nil =>
      cases rest
      simpa [whole] using listed u inside
    | cons w middle =>
      cases rest
      exact ordered before' v middle whole u inside

end InsideOut

theorem firsts_prefix (ids kept : List Nat) :
    kept <+: ids.foldl (fun kept id => if kept.contains id then kept else kept ++ [id]) kept := by
  induction ids generalizing kept with
  | nil => exact List.prefix_rfl
  | cons id rest ih =>
    refine List.IsPrefix.trans ?_ (ih _)
    dsimp only
    split
    · exact List.prefix_rfl
    · exact List.prefix_append ..

theorem sublist_firsts {ids : List Nat} {u t : Nat} (member : t ∈ ids)
    (before : ∀ earlier later, ids = earlier ++ t :: later → u ∈ earlier) :
    [u, t].Sublist (firsts ids) := by
  obtain ⟨earlier, later, rfl, new⟩ := List.eq_append_cons_of_mem member
  have listed : u ∈ firsts earlier := mem_firsts.mpr (before earlier later rfl)
  have fresh : (firsts earlier).contains t = false := by simpa [mem_firsts] using new
  have whole : firsts earlier ++ [t] <+: firsts (earlier ++ t :: later) := by
    have further := firsts_prefix later (firsts earlier ++ [t])
    rwa [firsts, firsts, List.foldl_append, List.foldl_cons, ← firsts, fresh] at *
  exact ((List.singleton_sublist.mpr listed).append_right [t]).trans whole.sublist

section Walks

/-- A walk that meets structs from the inside out. -/
def Upward (s : Schema) (w : Walk) : Prop := s.InsideOut (structsMet w.visits)

namespace Upward

theorem nowhere : s.Upward .nowhere := .nil

theorem meet {v : Visit} (other : ∀ t, v ≠ .struct t) : s.Upward (.meet v) := by
  cases v with
  | struct t => exact absurd rfl (other t)
  | _ => exact .nil

theorem andThen {first : Walk} {second : Unit → Walk} (upward : s.Upward first)
    (further : s.Upward (second ())) : s.Upward (first.andThen second) := by
  unfold Walk.andThen
  split
  · rw [Upward, structs_met_append]
    exact InsideOut.append upward further
  · exact upward

theorem each {α : Type} {walk : α → Walk} {items : List α} (upward : ∀ a ∈ items, s.Upward (walk a)) :
    s.Upward (Walk.each walk items) := by
  induction items with
  | nil => exact nowhere
  | cons a rest ih =>
    exact (upward a (List.mem_cons_self ..)).andThen
      (ih fun b member => upward b (List.mem_cons_of_mem _ member))

/-- A struct may be met behind a walk that has met what is nested in it. -/
theorem close {w : Walk} {t : StructId} (upward : s.Upward w)
    (met : w.ends = true → ∀ u, s.ProperlyContains (.struct t) (.struct u) → .struct u ∈ w.visits) :
    s.Upward (w.andThen fun _ => .meet (.struct t)) := by
  unfold Walk.andThen
  split
  · next ends =>
    rw [Upward, structs_met_append]
    exact InsideOut.single upward fun u inside => mem_structs_met.mpr (met ends u inside)
  · exact upward

variable {descend : TypeBase → Walk}

theorem field (descends : ∀ base, s.Upward (descend base)) (id : FieldId) :
    s.Upward (s.walkField descend id) :=
  (meet (v := .field id) nofun).andThen (descends _)

theorem member (descends : ∀ base, s.Upward (descend base)) (m : Member) :
    s.Upward (s.walkMember descend m) := by
  cases m with
  | field id => exact field descends id
  | spread name nameLocation location => exact meet (v := .reference name nameLocation) nofun

theorem value (descends : ∀ base, s.Upward (descend base)) (v : EnumValue) :
    s.Upward (walkValue descend v) := by
  refine (meet (v := .value v) nofun).andThen ?_
  cases v.data with
  | none => exact nowhere
  | some t => exact descends (.struct t)

end Upward

theorem walk_base_upward (fuel : Nat) : ∀ base, s.Upward (s.walkBase fuel base) := by
  induction fuel with
  | zero =>
    intro base
    cases base with
    | primitive kind => exact .nowhere
    | reference name location => exact .meet (v := .reference name location) nofun
    | struct t | enum e => exact .nil
  | succ fuel ih =>
    intro base
    cases base with
    | primitive kind => exact .nowhere
    | reference name location => exact .meet (v := .reference name location) nofun
    | enum e => exact (Upward.each fun v _ => .value ih v).andThen (.meet (v := .enum e) nofun)
    | struct t =>
      have whole : s.walkBase (fuel + 1) (.struct t) =
          ((Walk.each (s.walkMember (s.walkBase fuel)) (s.struct t).members).andThen fun _ =>
            Walk.each (s.walkField (s.walkBase fuel)) (s.struct t).fields).andThen fun _ =>
              .meet (.struct t) := by
        rw [Walk.andThen_assoc]
        rfl
      have inner : s.Upward ((Walk.each (s.walkMember (s.walkBase fuel)) (s.struct t).members).andThen
          fun _ => Walk.each (s.walkField (s.walkBase fuel)) (s.struct t).fields) :=
        (Upward.each fun m _ => .member ih m).andThen (.each fun id _ => .field ih id)
      rw [whole]
      apply inner.close
      intro ends u inside
      have all : (s.walkBase (fuel + 1) (.struct t)).ends = true := by
        rw [whole, Walk.andThen_ends, ends, Walk.meet_ends, Bool.and_true]
      have acyclic := acyclic_of_not_deep ((walk_base_ends s _ _).mp all)
      have met := (mem_walk_base _ all).mpr ⟨_, inside.to_reflTransGen, .struct⟩
      rw [whole, Walk.mem_andThen (whole ▸ all), Walk.mem_meet] at met
      rcases met with before | same
      · exact before
      · cases same
        exact absurd inside (acyclic _ .refl)

theorem walk_upward (s : Schema) : s.Upward s.walk := by
  have descends : ∀ base, s.Upward (s.walkFrom base) := walk_base_upward _
  refine (Upward.each fun e _ => ?_).andThen ((Upward.each fun d _ => ?_).andThen (.each fun o _ => ?_))
  · exact (Upward.meet (v := .error e) nofun).andThen (descends _)
  · exact (Upward.meet (v := .definition d) nofun).andThen (descends _)
  · exact (Upward.meet (v := .operation o) nofun).andThen ((Upward.each fun m _ => .member descends m).andThen
      ((Upward.each fun id _ => .field descends id).andThen (descends _)))

end Walks

/-- A struct with fields, or an enum with values. -/
def Filled (s : Schema) : Visit → Prop
  | .struct t => (s.struct t).fields ≠ []
  | .enum e => (s.enum e).values ≠ []
  | _ => True

theorem check_not_empty_ok {visits : List Visit} :
    s.checkNotEmpty visits = .ok () ↔ ∀ v ∈ visits, s.Filled v := by
  induction visits with
  | nil => simp [checkNotEmpty]
  | cons v rest ih =>
    rw [List.forall_mem_cons, ← ih]
    cases v with
    | struct t => cases fields : (s.struct t).fields <;> simp [checkNotEmpty, Filled, fields, refuse]
    | enum e => cases values : (s.enum e).values <;> simp [checkNotEmpty, Filled, values, refuse]
    | _ => simp [checkNotEmpty, Filled]

namespace Accepted

variable {named expanded final : Schema}

theorem filled (accepted : Accepted s named expanded final) {base : TypeBase} {v : Visit}
    (known : final.Known base) (nested : base.IsNested) (shown : expanded.Shows base v) :
    expanded.Filled v := by
  have passed := accepted.emptiness
  rw [check_emptiness_cases] at passed
  split at passed
  · cases passed
  · next outcome =>
    exact check_not_empty_ok.mp outcome v
      (met_of_known accepted.grounded (accepted.expanded_known known) nested shown)

theorem has_fields (accepted : Accepted s named expanded final) {t : StructId}
    (known : final.Known (.struct t)) : (final.struct t).fields ≠ [] := by
  rw [accepted.same_types.struct]
  exact accepted.filled known trivial .struct

theorem has_values (accepted : Accepted s named expanded final) {e : EnumId}
    (known : final.Known (.enum e)) : (final.enum e).values ≠ [] := by
  rw [accepted.same_types.enum]
  exact accepted.filled known trivial .enum

theorem spread (accepted : Accepted s named expanded final) : final.Spread := by
  have gone := spread_of_expanded accepted.spreads
  constructor
  · intro t known
    rw [accepted.same_types.struct]
    exact gone.structs t (accepted.expanded_known known)
  · rw [accepted.final]
    exact gone.operations

theorem first_definition (accepted : Accepted s named expanded final) (grounded : s.Grounded)
    {name : String} {location : Location} (known : final.Known (.reference name location)) :
    ∃ d, final.definition? name = some d ∧ d.name = name ∧ ∃ earlier later,
      final.definitions = earlier ++ d :: later ∧ ∀ other ∈ earlier, other.name ≠ name := by
  have bound := accepted.bound grounded name location known
  obtain ⟨d, defined⟩ := Option.isSome_iff_exists.mp bound
  obtain ⟨same, earlier, later, split, others⟩ := List.find?_eq_some_iff_append.mp defined
  exact ⟨d, defined, by simpa using same, earlier, later, split, by simpa using others⟩

theorem listed_before (accepted : Accepted s named expanded final) {t u : StructId}
    (known : final.Known (.struct t)) (inside : final.ProperlyContains (.struct t) (.struct u)) :
    [u, t].Sublist final.structOrder := by
  have met := met_of_known accepted.grounded (accepted.expanded_known known) trivial .struct
  have inside : expanded.ProperlyContains (.struct t) (.struct u) :=
    Relation.TransGen.mono (fun _ _ => accepted.same_types.nests) _ _ inside
  rw [accepted.final]
  exact sublist_firsts (mem_structs_met.mpr met) fun earlier later split =>
    expanded.walk_upward earlier t later split u inside

end Accepted

/-- In an accepted source every reference has the type of the first definition of its name, nothing
has members, is empty or has two parts of one name; the structs and enums that were found are
those behind the declarations, each once and under a name of its own, and a struct stands behind
those that are nested in it. -/
theorem accepted_form {files : FileTree} {file source : String} {tree : SchemaTree}
    {final : Schema} (parsed : SchemaTree.parse files file source = .ok tree)
    (accepted : (ofTree tree).analyse = .ok final) :
    (∀ name location, final.Known (.reference name location) →
      ∃ d, final.definition? name = some d ∧ d.name = name ∧ ∃ earlier later,
        final.definitions = earlier ++ d :: later ∧ ∀ other ∈ earlier, other.name ≠ name) ∧
    (∀ t, final.Known (.struct t) → (final.struct t).members = [] ∧ (final.struct t).fields ≠ [] ∧
      final.DistinctNames (final.struct t).fields) ∧
    (∀ o ∈ final.operations, o.members = [] ∧ final.DistinctNames o.args) ∧
    (∀ e, final.Known (.enum e) → (final.enum e).values ≠ [] ∧
      ((final.enum e).values.map (·.text)).Nodup) ∧
    (∀ base, base ∈ final.collected ↔ final.Known base ∧ base.IsNested) ∧
    final.collected.Nodup ∧ (final.collected.map final.baseName).Nodup ∧
    ∀ t u, final.Known (.struct t) → final.ProperlyContains (.struct t) (.struct u) →
      [u, t].Sublist final.structOrder := by
  obtain ⟨named, expanded, stages⟩ := accepted_of_analyse accepted
  have treelike := treelike_of_tree tree
  have distinct := stages.distinct_fields treelike
    (unexpanded_of_tree (SchemaTree.bare_of_parse parsed))
  refine ⟨?_, ?_, ?_, ?_, ?_, ?_, stages.collected_names treelike, ?_⟩
  · exact fun name location known => stages.first_definition treelike.grounded known
  · exact fun t known => ⟨stages.spread.structs t known, stages.has_fields known, distinct.1 t⟩
  · exact fun o member => ⟨stages.spread.operations o member, distinct.2 o member⟩
  · exact fun e known => ⟨stages.has_values known, stages.distinct_values known⟩
  · exact fun base => ⟨stages.collected_known, fun ⟨known, nested⟩ => stages.collects known nested⟩
  · rw [stages.final]
    exact expanded.collected_nodup
  · exact fun t u known inside => stages.listed_before known inside

def shipments : String :=
  "type Place \x7b city: string state: enum \x7b open closed \x7b reason: string \x7d \x7d \x7d\n" ++
    "type Visit \x7b ...Place at: datetime back: Visit? \x7d\n" ++
    "fn move(...Visit, weight: uint): Place"

theorem shipments_form : ∃ tree final, SchemaTree.parse ⟨[], []⟩ "-" shipments = .ok tree ∧
    (ofTree tree).analyse = .ok final ∧
    (∀ t, final.Known (.struct t) → (final.struct t).members = []) ∧
    (∀ o ∈ final.operations, o.members = []) := by
  have compiles : ((SchemaTree.parse ⟨[], []⟩ "-" shipments).toOption.map fun tree =>
      (ofTree tree).analyse.isOk) = some true := by
    simp only [SchemaTree.parse_by_chars]
    decide +kernel
  cases parsed : SchemaTree.parse ⟨[], []⟩ "-" shipments with
  | error e => rw [parsed] at compiles; cases compiles
  | ok tree =>
    rw [parsed] at compiles
    obtain ⟨final, accepted⟩ := exists_of_is_ok (Option.some.inj compiles)
    obtain ⟨_, structs, operations, _⟩ := accepted_form parsed accepted
    exact ⟨tree, final, rfl, accepted, fun t known => (structs t known).1,
      fun o member => (operations o member).1⟩

end Schema

end ApiSchema
