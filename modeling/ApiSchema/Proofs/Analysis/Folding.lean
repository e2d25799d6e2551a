import ApiSchema.Proofs.Analysis.Expansion
import ApiSchema.Proofs.Analysis.Following

/-! What the fields of a struct are, told by recursion on its members. The pass that expands spreads
comes to the same fields, from wherever it enters a struct. -/

namespace ApiSchema.Schema

/-- A field takes the place of the one with its name, or comes last. -/
def place (s : Schema) (ids : List FieldId) (id : FieldId) : List FieldId :=
  if ids.any fun other => (s.field other).name == (s.field id).name then
    ids.map fun other => if (s.field other).name = (s.field id).name then id else other
  else ids ++ [id]

/-- Members give fields, from left to right and after those before them. A field gives itself, and a
spread the fields of the struct that its name resolves to, which has members of its own. -/
inductive Folds (s : Schema) : List Member → List FieldId → List FieldId → Prop where
  | nil {ids} : Folds s [] ids ids
  | field {id rest ids result} (later : Folds s rest (s.place ids id) result) :
    Folds s (.field id :: rest) ids result
  | spread {name nameLocation location rest ids u own result}
    (target : s.resolve name = .ok ⟨[], .struct u⟩) (inside : Folds s (s.struct u).members [] own)
    (later : Folds s rest (((s.struct u).fields ++ own).foldl s.place ids) result) :
    Folds s (.spread name nameLocation location :: rest) ids result

variable {s s' : Schema} {members : List Member} {ids : List FieldId}

theorem Folds.unique {result other : List FieldId} (folds : s.Folds members ids result)
    (again : s.Folds members ids other) : result = other := by
  induction folds generalizing other with
  | nil => cases again; rfl
  | field _ ih =>
    cases again with
    | field later => exact ih later
  | spread target _ _ inner outer =>
    cases again with
    | spread target' inside' later' =>
      cases target.symm.trans target'
      cases inner inside'
      exact outer later'

theorem add_field_eq_place (distinct : s.DistinctNames ids) (id : FieldId) :
    Spreading.addField s id ids = s.place ids id := by
  unfold DistinctNames at distinct
  induction ids with
  | nil => rfl
  | cons other rest ih =>
    obtain ⟨fresh, distinct⟩ := List.nodup_cons.mp distinct
    rw [Spreading.addField]
    split
    · next same =>
      have others : ∀ later ∈ rest, (s.field later).name ≠ (s.field id).name := by
        intro later member equal
        exact fresh (List.mem_map.mpr ⟨later, member, equal.trans same.symm⟩)
      have kept : rest.map (fun other => if (s.field other).name = (s.field id).name then id else other) =
          rest := by
        rw [List.map_congr_left fun later member => if_neg (others later member), List.map_id']
      simp [place, same, kept]
    · next different =>
      rw [ih distinct]
      simp only [place, List.any_cons, different, Bool.false_or, beq_eq_false_iff_ne.mpr,
        ne_eq, not_false_eq_true, List.map_cons, if_false, List.cons_append]
      split <;> rfl

theorem add_fields_eq_place {added : List FieldId} :
    ∀ {ids}, s.DistinctNames ids →
      added.foldl (fun ids id => Spreading.addField s id ids) ids = added.foldl s.place ids := by
  induction added with
  | nil => exact fun _ => rfl
  | cons id rest ih =>
    intro ids distinct
    rw [List.foldl_cons, List.foldl_cons, ih (Spreading.distinct_addField distinct),
      add_field_eq_place distinct]

namespace Gathers

theorem folds_of_spread (gathers : s.Gathers s') (same : s'.definitions = s.definitions)
    (field : ∀ id, s'.field id = s.field id) {all : List Member} (writes : s.Writes all)
    (spread : ∀ u, s.Spreads all u →
      s.Folds (s.struct u).members [] (s'.gather (s.struct u).members [])) :
    ∀ {ids}, members ⊆ all → s.DistinctNames ids → s.Folds members ids (s'.gather members ids) := by
  have add : ∀ id, Spreading.addField s' id = Spreading.addField s id :=
    fun id => funext (add_field_congr field id)
  induction members with
  | nil => exact fun _ _ => .nil
  | cons m rest ih =>
    intro ids listed distinct
    obtain ⟨here, below⟩ := List.cons_subset.mp listed
    cases m with
    | field id =>
      have widened : s.DistinctNames (Spreading.addField s id ids) :=
        Spreading.distinct_addField distinct
      have later := ih below widened
      rw [gather, add]
      rw [add_field_eq_place distinct] at later ⊢
      exact .field later
    | spread name nameLocation location =>
      obtain ⟨u, resolved⟩ := gathers.aimed all writes name nameLocation location here
      have spreads : s.Spreads all u := ⟨name, nameLocation, location, here, resolved⟩
      obtain ⟨none, fields⟩ := gathers.structs u (writes.spreads_known spreads)
      have widened : s.DistinctNames
          ((s'.struct u).fields.foldl (fun ids id => Spreading.addField s id ids) ids) :=
        Spreading.distinct_addFields distinct
      have later := ih below widened
      rw [gather, fields_of_expanded ((resolve_congr same name).trans resolved) none]
      simp only [add]
      rw [add_fields_eq_place distinct, fields] at later ⊢
      exact .spread resolved (spread u spreads) later

theorem struct_folds (gathers : s.Gathers s') (same : s'.definitions = s.definitions)
    (field : ∀ id, s'.field id = s.field id) {t : StructId} (known : s.Known (.struct t)) :
    s.Folds (s.struct t).members [] (s'.gather (s.struct t).members []) := by
  induction gathers.founded t known with
  | intro t _ ih =>
    refine gathers.folds_of_spread same field (.struct known) (fun u spreads => ?_)
      (List.Subset.refl _) (distinct_nil s)
    exact ih u spreads ((Writes.struct known).spreads_known spreads)

theorem operation_folds (gathers : s.Gathers s') (same : s'.definitions = s.definitions)
    (field : ∀ id, s'.field id = s.field id) {o : Operation} (member : o ∈ s.operations) :
    s.Folds o.members [] (s'.gather o.members []) := by
  refine gathers.folds_of_spread same field (.operation member) (fun u spreads => ?_)
    (List.Subset.refl _) (distinct_nil s)
  exact gathers.struct_folds same field ((Writes.operation member).spreads_known spreads)

end Gathers

/-- In an accepted schema, each struct and each operation has the fields that it had before, and behind
them those that its members give once references are bound. -/
theorem fields_folded {final : Schema} (submitted : s.Submitted) (accepted : s.analyse = .ok final) :
    ∃ bound, s.declared = .ok bound ∧
      (∀ t, (bound.struct t).members = (s.struct t).members ∧
        (bound.struct t).fields = (s.struct t).fields) ∧
      (∀ id, (bound.field id).name = (s.field id).name ∧ final.field id = bound.field id) ∧
      (∀ t, final.Known (.struct t) → ∃ added,
        (∀ other, bound.Folds (s.struct t).members [] other ↔ other = added) ∧
          (final.struct t).members = [] ∧ (final.struct t).fields = (s.struct t).fields ++ added) ∧
      List.Forall₂ (fun o o' => o'.name = o.name ∧ ∃ added,
        (∀ other, bound.Folds o.members [] other ↔ other = added) ∧
          o'.members = [] ∧ o'.args = o.args ++ added) s.operations final.operations := by
  obtain ⟨bound, expanded, stages⟩ := accepted_of_analyse accepted
  have names := names_of_name_types submitted.grounded.add_fatal stages.names
  have gathers := gathers_of_expanded stages.spreads
  have same : expanded.definitions = bound.definitions := stages.expands.inherits.definitions
  have field : ∀ id, expanded.field id = bound.field id := stages.expands.inherits.field
  have only : ∀ {members added}, bound.Folds members [] added →
      ∀ other, bound.Folds members [] other ↔ other = added :=
    fun folds other => ⟨fun again => again.unique folds, fun equal => equal ▸ folds⟩
  have declared : s.declared = .ok bound := by
    simp only [Schema.declared, stages.redeclared, stages.names, stages.references, bind, Except.bind]
    rfl
  have members : ∀ t, (bound.struct t).members = (s.struct t).members :=
    fun t => (names.revises.members t).trans (by rw [s.add_fatal_same_types.struct])
  have fields : ∀ t, (bound.struct t).fields = (s.struct t).fields :=
    fun t => (names.revises.fields t).trans (by rw [s.add_fatal_same_types.struct])
  refine ⟨bound, declared, fun t => ⟨members t, fields t⟩, fun id => ⟨?_, ?_⟩, ?_, ?_⟩
  · rw [← (names.revises.field id).name, add_fatal_field]
  · rw [stages.same_types.field, field]
  · intro t known
    have known := stages.known known
    obtain ⟨none, filled⟩ := gathers.structs t known
    have folds := gathers.struct_folds same field known
    rw [stages.same_types.struct, none, filled]
    rw [members] at folds ⊢
    exact ⟨_, only folds, rfl, by rw [fields]⟩
  · have kept : final.operations = expanded.operations := by rw [stages.final]; rfl
    have filled := forall_of_mem gathers.operations fun o member _ _ expands =>
      And.intro expands (gathers.operation_folds same field member)
    rw [kept, ← add_fatal_operations]
    refine forall_trans names.operations filled ?_
    rintro o before o' replaces ⟨rfl, folds⟩
    rw [replaces.members] at folds ⊢
    exact ⟨replaces.name, _, only folds, rfl, by rw [replaces.args]⟩

def diamond : String :=
  "type Base \x7b id: uint, name: string \x7d\n" ++
    "type Left \x7b ...Base, name: int \x7d\n" ++
    "type Right \x7b size: int, ...Also \x7d\ntype Also Base\n" ++
    "type All \x7b ...Left, ...Right, id: string \x7d\n" ++
    "fn list(...All, size: bytes): All"

theorem diamond_folded : ∃ tree final bound, SchemaTree.parse ⟨[], []⟩ "-" diamond = .ok tree ∧
    (ofTree tree).analyse = .ok final ∧ (ofTree tree).declared = .ok bound ∧
    (final.structOrder.map fun t => ((final.struct t).name, (final.struct t).fields.map fun id =>
      ((final.field id).name, final.typeName (final.field id).type))) =
        [("Base", [("id", "uint"), ("name", "string")]),
          ("Left", [("id", "uint"), ("name", "int")]),
          ("Right", [("size", "int"), ("id", "uint"), ("name", "string")]),
          ("All", [("id", "string"), ("name", "string"), ("size", "int")])] ∧
    (∀ t ∈ final.structOrder,
      bound.Folds ((ofTree tree).struct t).members [] (final.struct t).fields) := by
  have checked : (SchemaTree.parse ⟨[], []⟩ "-" diamond).toOption.bind (fun tree =>
      (ofTree tree).analyse.toOption.map fun final => final.structOrder.map fun t =>
        ((final.struct t).name, (final.struct t).fields.map fun id =>
          ((final.field id).name, final.typeName (final.field id).type))) =
        some [("Base", [("id", "uint"), ("name", "string")]),
          ("Left", [("id", "uint"), ("name", "int")]),
          ("Right", [("size", "int"), ("id", "uint"), ("name", "string")]),
          ("All", [("id", "string"), ("name", "string"), ("size", "int")])] := by
    simp only [SchemaTree.parse_by_chars]
    decide +kernel
  obtain ⟨tree, parsed, found⟩ := Option.bind_eq_some_iff.mp checked
  obtain ⟨final, accepted, described⟩ := Option.map_eq_some_iff.mp found
  have parsed := ok_of_to_option parsed
  have accepted := ok_of_to_option accepted
  have unexpanded := unexpanded_of_tree (SchemaTree.bare_of_parse parsed)
  obtain ⟨bound, declared, _, _, structs, _⟩ := fields_folded (.tree tree) accepted
  refine ⟨tree, final, bound, parsed, accepted, declared, described, fun t member => ?_⟩
  obtain ⟨named, expanded, stages⟩ := accepted_of_analyse accepted
  have collected : .struct t ∈ final.collected :=
    List.mem_append_left _ (List.mem_map_of_mem member)
  obtain ⟨added, only, _, fields⟩ := structs t (stages.collected_known collected).1
  rw [fields, unexpanded.structs t, List.nil_append]
  exact (only added).mpr rfl

end ApiSchema.Schema
