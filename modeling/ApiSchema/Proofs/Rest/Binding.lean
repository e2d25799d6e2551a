import ApiSchema.Proofs.Analysis.Following
import ApiSchema.Proofs.Analysis.Expansion
import ApiSchema.Proofs.Document.Loading
import ApiSchema.Proofs.Rest.Checking

/-! How often the mappings of an accepted schema bind the arguments of their operations: once, but for
an argument that is the body and is taken from somewhere else besides. -/

namespace ApiSchema

def RestMapping.bindings (m : RestMapping) : List String := m.variables ++ m.bodyVariable.toList

namespace Schema

variable {s named expanded final : Schema}

/-- An accepted schema of a source, of a document that has been read, or of one that was accepted
before. -/
inductive Obtained : Schema → Prop where
  | source {files : FileTree} {file source : String} {tree : SchemaTree} {result : Schema}
    (parsed : SchemaTree.parse files file source = .ok tree)
    (accepted : (ofTree tree).analyse = .ok result) : Obtained result
  | document {value : Value} {d : Document} {result : Schema} (read : Document.ofValue? value = some d)
    (accepted : (ofDocument d).analyse = .ok result) : Obtained result
  | again {before result : Schema} (obtained : Obtained before)
    (accepted : before.analyse = .ok result) : Obtained result

def DistinctArgs (s : Schema) : Prop := ∀ o ∈ s.operations, o.members = [] ∧ s.DistinctNames o.args

theorem Obtained.analysed (obtained : final.Obtained) : final.Analysed := by
  induction obtained with
  | source parsed accepted => exact .source parsed accepted
  | document _ accepted => exact .document accepted
  | again _ accepted ih => exact .again ih accepted

theorem obtained_of_some {source : String} (found : analysed? source = some final) : final.Obtained := by
  obtain ⟨tree, parsed, accepted⟩ := Option.bind_eq_some_iff.mp found
  exact .source (ok_of_to_option parsed) (ok_of_to_option accepted)

theorem Accepted.distinct_args (accepted : Accepted s named expanded final) (grounded : s.Grounded)
    (distinct : s.DistinctArgs) : final.DistinctArgs := by
  have renamed := names_of_name_types grounded.add_fatal accepted.names
  intro o member
  rw [accepted.final] at member
  obtain ⟨o₁, declared, rfl⟩ := exists_left (gathers_of_expanded accepted.spreads).operations member
  obtain ⟨o₀, listed, replaced⟩ := exists_left renamed.operations declared
  rw [add_fatal_operations] at listed
  obtain ⟨none, apart⟩ := distinct o₀ listed
  refine ⟨rfl, ?_⟩
  have names : ∀ id, (final.field id).name = (s.field id).name := fun id => by
    rw [accepted.field, ← (renamed.revises.field id).name, add_fatal_field]
  simpa [DistinctNames, names, replaced.members, none, gather, replaced.args] using apart

theorem distinct_args_of_document {value : Value} {d : Document} (read : Document.ofValue? value = some d) :
    (ofDocument d).DistinctArgs := by
  intro o member
  have loads := loads_of_document (Document.distinct_of_read read).types
  obtain ⟨entry, listed, ids, rfl, _, fields⟩ := exists_left loads.operations member
  refine ⟨rfl, ?_⟩
  have names : ids.map (fun id => ((ofDocument d).field id).name) = entry.2.args.keys := by
    simpa [Table.keys, textField, Function.comp_def] using congrArg (List.map Field.name) fields
  rw [DistinctNames, names]
  exact Document.args_of_read read entry listed

theorem Obtained.distinct_args (obtained : final.Obtained) : final.DistinctArgs := by
  induction obtained with
  | @source _ _ _ tree _ parsed accepted =>
    obtain ⟨named, expanded, stages⟩ := accepted_of_analyse accepted
    have distinct := stages.distinct_fields (treelike_of_tree tree)
      (unexpanded_of_tree (SchemaTree.bare_of_parse parsed))
    intro o member
    refine ⟨?_, distinct.2 o member⟩
    rw [stages.final] at member
    obtain ⟨_, _, expands⟩ := exists_left stages.expands.operations member
    exact expands.members
  | @document _ d _ read accepted =>
    obtain ⟨named, expanded, stages⟩ := accepted_of_analyse accepted
    exact stages.distinct_args (grounded_of_document d) (distinct_args_of_document read)
  | again earlier accepted ih =>
    obtain ⟨named, expanded, stages⟩ := accepted_of_analyse accepted
    obtain ⟨_, _, _, _, before⟩ := earlier.analysed.accepted
    exact stages.distinct_args before.final_grounded ih

section Mappings

variable {o : Operation} {n : Note} {m : RestMapping}

theorem Accepted.admits (accepted : Accepted s named expanded final) (resolved : final.Resolved)
    (member : o ∈ final.operations) (noted : n ∈ o.notes) (mapping : n.content = .rest m) :
    final.Admits (o.args.map final.field) o.returns m := by
  have checked : final.checkNotes = .ok () := by
    rw [accepted.final]
    exact accepted.notes
  have met : .operation o ∈ final.walk.visits :=
    (mem_walk accepted.final_grounded).mpr (.operation member)
  have passed := forM_ok_iff.mp (forM_ok_iff.mp checked _ met) n noted
  rw [checkOperationNote, mapping] at passed
  exact (check_rest_iff resolved member).mp passed

theorem count_bindings (once : m.variables.Nodup) (name : String) :
    m.bindings.count name = (if name ∈ m.variables then 1 else 0) +
      (if m.bodyVariable = some name then 1 else 0) := by
  rw [RestMapping.bindings, List.count_append, once.count]
  cases m.bodyVariable with
  | none => simp
  | some body => simp [List.count_singleton]

namespace Admits

variable {args : List Field} {returns : TypeUse} (admits : s.Admits args returns m)

include admits

theorem argument {name : String} (bound : name ∈ m.bindings) : ∃ arg ∈ args, arg.name = name := by
  rcases List.mem_append.mp bound with taken | body
  · obtain ⟨arg, found, _⟩ := admits.suited name taken
    exact ⟨arg, arg_of_find found⟩
  · exact admits.body name (by simpa using body)

theorem count {arg : Field} (listed : arg ∈ args) : m.bindings.count arg.name =
    if m.bodyVariable = some arg.name ∧ arg.name ∈ m.variables then 2 else 1 := by
  rw [count_bindings admits.once]
  have bound := admits.bound arg listed
  by_cases taken : arg.name ∈ m.variables
  · by_cases body : m.bodyVariable = some arg.name <;> simp [taken, body]
  · simp [taken, bound.resolve_left taken]

theorem suited_of_distinct (apart : (args.map (·.name)).Nodup) {arg : Field} (listed : arg ∈ args)
    (taken : arg.name ∈ m.variables) : (arg.name ∈ m.pathVariables → arg.type.isOptional = false) ∧
      s.Encodable (required arg.type) := by
  obtain ⟨other, found, suited⟩ := admits.suited _ taken
  obtain ⟨listed', same⟩ := arg_of_find found
  rwa [List.inj_on_of_nodup_map apart listed' listed same] at suited

theorem not_nullable (apart : (args.map (·.name)).Nodup) {arg : Field} (listed : arg ∈ args)
    (taken : arg.name ∈ m.pathVariables) : ¬ s.Nullable arg.type := by
  have among : arg.name ∈ m.variables := by simp [RestMapping.variables, taken]
  obtain ⟨plain, encodable⟩ := admits.suited_of_distinct apart listed among
  rw [required_of_not_optional (plain taken)] at encodable
  exact encodable.not_nullable

end Admits

/-- In an accepted schema each variable of a mapping is an argument of the operation, and each argument
is bound once, unless it is the body and a variable of the path, the query or a header besides. What is
taken from there can be written so, but for an optional, and nothing of the path is optional at all. -/
theorem arguments_bound (obtained : final.Obtained) (member : o ∈ final.operations) (noted : n ∈ o.notes)
    (mapping : n.content = .rest m) :
    (∀ name ∈ m.bindings, ∃! id, id ∈ o.args ∧ (final.field id).name = name) ∧
    (∀ id ∈ o.args, m.bindings.count (final.field id).name =
      if m.bodyVariable = some (final.field id).name ∧ (final.field id).name ∈ m.variables then 2 else 1) ∧
    (∀ id ∈ o.args, (final.field id).name ∈ m.variables →
      final.Encodable (required (final.field id).type)) ∧
    ∀ id ∈ o.args, (final.field id).name ∈ m.pathVariables → ¬ final.Nullable (final.field id).type := by
  obtain ⟨s, named, expanded, grounded, stages⟩ := obtained.analysed.accepted
  have admits := stages.admits (stages.resolved grounded) member noted mapping
  have names : (o.args.map fun id => (final.field id).name).Nodup := (obtained.distinct_args o member).2
  have apart : ((o.args.map final.field).map (·.name)).Nodup := by rwa [List.map_map]
  have listed : ∀ id ∈ o.args, final.field id ∈ o.args.map final.field := fun _ => List.mem_map_of_mem
  refine ⟨fun name bound => ?_, fun id held => admits.count (listed id held),
    fun id held taken => (admits.suited_of_distinct apart (listed id held) taken).2,
    fun id held taken => admits.not_nullable apart (listed id held) taken⟩
  obtain ⟨arg, found, rfl⟩ := admits.argument bound
  obtain ⟨id, held, rfl⟩ := List.mem_map.mp found
  exact ⟨id, ⟨held, rfl⟩, fun other again => List.inj_on_of_nodup_map names again.1 held again.2⟩

def transfers : String :=
  "type Keyed \x7b id: Id \x7d\ntype Id uuid\n" ++
    "@rest PUT /\x7bid\x7d?\x7bat\x7d [header Trace: \x7btrace\x7d] [body \x7bowner\x7d]\n" ++
    "fn transfer(...Keyed, at: date?, trace: hex, owner: Keyed)"

theorem transfer_bound_once : ∃ final, analysed? transfers = some final ∧
    ∃ o ∈ final.operations, ∃ n ∈ o.notes, ∃ m, n.content = .rest m ∧
      o.args.map (fun id => (final.field id).name) = ["id", "at", "trace", "owner"] ∧
        ∀ id ∈ o.args, m.bindings.count (final.field id).name = 1 := by
  have checked : (analysed? transfers).map (fun s => s.operations.map fun o =>
      (o.notes.map (·.content), o.args.map fun id => (s.field id).name)) =
        some [([.rest ⟨"PUT", "/\x7bid\x7d", ["id"], ["at"], [("trace", "trace")], some "owner"⟩],
          ["id", "at", "trace", "owner"])] := by
    simp only [analysed?, SchemaTree.parse_by_chars]
    decide +kernel
  obtain ⟨final, found, checked⟩ := Option.map_eq_some_iff.mp checked
  obtain ⟨o, only, same⟩ := List.map_eq_singleton_iff.mp checked
  obtain ⟨notes, args⟩ := Prod.mk.inj same
  obtain ⟨n, single, mapping⟩ := List.map_eq_singleton_iff.mp notes
  have member : o ∈ final.operations := by simp [only]
  have noted : n ∈ o.notes := by simp [single]
  obtain ⟨_, counts, _⟩ := arguments_bound (obtained_of_some found) member noted mapping
  refine ⟨final, found, o, member, n, noted, _, mapping, args, fun id held => ?_⟩
  rw [counts id held, if_neg]
  have listed : (final.field id).name ∈ ["id", "at", "trace", "owner"] := by
    rw [← args]
    exact List.mem_map_of_mem held
  revert listed
  generalize (final.field id).name = name
  revert name
  decide

/-- An argument of the path that is the body besides is bound twice. -/
theorem body_bound_again :
    (analysed? "@rest POST /x/\x7ba\x7d [body \x7ba\x7d]\nfn f(a: string)").map (fun s =>
      s.operations.map fun o => (o.args.map fun id => (s.field id).name,
        o.notes.map fun n => match n.content with
          | .rest m => m.bindings.count "a"
          | _ => 0)) = some [(["a"], [2])] := by
  simp only [analysed?, SchemaTree.parse_by_chars]
  decide +kernel

end Mappings

end Schema

end ApiSchema
