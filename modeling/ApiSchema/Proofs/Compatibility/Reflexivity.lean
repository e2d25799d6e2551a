import ApiSchema.Proofs.Analysis.Form
import ApiSchema.Proofs.Compatibility.Directions

/-! A schema beside itself. Every type of an accepted source is compatible with itself in both
directions, so that an issue is found only where declarations share a name: each of them is compared
with the last one. -/

namespace ApiSchema

theorem last_of_distinct {α : Type} {key : α → String} {items : List α} {a : α}
    (distinct : (items.map key).Nodup) (member : a ∈ items) :
    items.reverse.find? (key · == key a) = some a := by
  cases found : items.reverse.find? (key · == key a) with
  | none =>
    have other := List.find?_eq_none.mp found a (List.mem_reverse.mpr member)
    simp at other
  | some b =>
    have held := List.mem_reverse.mp (List.mem_of_find?_eq_some found)
    have same : key b = key a := by simpa using List.find?_some found
    rw [List.inj_on_of_nodup_map distinct held member same]

namespace Schema

structure Unambiguous (s : Schema) : Prop where
  fields : ∀ t, s.Known (.struct t) → s.DistinctNames (s.struct t).fields
  args : ∀ o ∈ s.operations, s.DistinctNames o.args
  values : ∀ e, s.Known (.enum e) → ((s.enum e).values.map (·.text)).Nodup

theorem unambiguous_of_source {files : FileTree} {file source : String} {tree : SchemaTree}
    {final : Schema} (parsed : SchemaTree.parse files file source = .ok tree)
    (accepted : (ofTree tree).analyse = .ok final) : final.Unambiguous := by
  obtain ⟨_, structs, operations, enums, _⟩ := accepted_form parsed accepted
  exact {
    fields := fun t known => (structs t known).2.2
    args := fun o member => (operations o member).2
    values := fun e known => (enums e known).2 }

variable {s : Schema}

theorem Unambiguous.last_data_field (unambiguous : s.Unambiguous) {t : Option StructId} {f : Field}
    (known : ∀ u ∈ t, s.Known (.struct u)) (held : f ∈ s.dataFields t) :
    lastField? (s.dataFields t) f.name = some f := by
  cases t with
  | none => cases held
  | some u =>
    refine last_of_distinct ?_ held
    have distinct := unambiguous.fields u (known u rfl)
    simpa [DistinctNames, dataFields, Function.comp_def] using distinct

theorem Unambiguous.last_argument (unambiguous : s.Unambiguous) {o : Operation} {f : Field}
    (member : o ∈ s.operations) (given : f ∈ o.args.map s.field) :
    lastField? (o.args.map s.field) f.name = some f := by
  refine last_of_distinct ?_ given
  have distinct := unambiguous.args o member
  simpa [DistinctNames, Function.comp_def] using distinct

end Schema

namespace Transfer

open Schema

variable {s : Schema} {direction : Direction}

def Twin (s : Schema) (sent received : TypeUse) : Prop := sent = received ∧ s.Known sent.base

theorem twin_fields (unambiguous : s.Unambiguous) {t : Option StructId}
    (known : ∀ u ∈ t, s.Known (.struct u)) {f : Field} (held : f ∈ s.dataFields t) :
    (⟨direction, s, s⟩ : Transfer).FillsWith (Twin s) (s.dataFields t) f := by
  unfold FillsWith
  rw [unambiguous.last_data_field known held]
  exact ⟨rfl, known_of_data_fields known held⟩

theorem twins_consistent (navigable : s.Navigable) (unambiguous : s.Unambiguous) :
    (⟨direction, s, s⟩ : Transfer).Consistent (Twin s) := by
  -- A rule looks at what aliases lead to, which is the same on both sides and known as well.
  rintro sent _ ⟨rfl, known⟩
  have other := (stands_subject navigable.resolved known).2
  have behind := subject_known navigable.resolved known
  dsimp only
  generalize s.subject sent = S at *
  obtain ⟨suffixes, base⟩ := S
  match suffixes, base with
  | .optional :: rest, base => exact .optional ⟨rfl, behind⟩
  | .array :: rest, base => exact .array ⟨rfl, behind⟩
  | [], .primitive k => exact .same
  | [], .reference name location => exact absurd rfl (other name location)
  | [], .struct t =>
    refine .struct fun f held => twin_fields unambiguous ?_ held
    rintro _ ⟨⟩
    exact behind
  | [], .enum e =>
    refine .enum fun v member => ⟨v, last_of_distinct (unambiguous.values e behind) member, ?_⟩
    exact fun f held => twin_fields unambiguous
      (fun t data => behind.reaches (.single (.value member data))) held

theorem compatible_self (navigable : s.Navigable) (unambiguous : s.Unambiguous) {t : TypeUse}
    (known : s.Known t.base) : (⟨direction, s, s⟩ : Transfer).Compatible t t :=
  ⟨Twin s, twins_consistent navigable unambiguous, rfl, known⟩

end Transfer

namespace Compatibility

open Schema Transfer

variable {s : Schema}

theorem operation_compatible_self (navigable : s.Navigable) (unambiguous : s.Unambiguous)
    {o : Operation} (member : o ∈ s.operations) (last : successor? s o = some o) :
    OperationCompatible s s o := by
  refine ⟨o, last, ?_, fun f given => ?_⟩
  · exact compatible_self navigable unambiguous (known_of_declares (.returns member))
  · unfold FillsWith
    rw [unambiguous.last_argument member given]
    obtain ⟨id, held, rfl⟩ := List.mem_map.mp given
    exact compatible_self navigable unambiguous (known_of_declares (.argument member (.inr held)))

theorem error_compatible_self (navigable : s.Navigable) (unambiguous : s.Unambiguous)
    {e : ErrorKind} (member : e ∈ s.errors) (last : laterError? s e = some e) :
    ErrorCompatible s s e := by
  intro later found
  rw [last] at found
  cases found
  exact compatible_self navigable unambiguous (known_of_declares (.error member))

theorem issues_self_iff (analysed : s.Analysed) (unambiguous : s.Unambiguous) :
    issues s s = [] ↔
      (∀ o ∈ s.operations, successor? s o ≠ some o → OperationCompatible s s o) ∧
        ∀ e ∈ s.errors, laterError? s e ≠ some e → ErrorCompatible s s e := by
  have navigable := Analysed.navigable analysed
  rw [(issues_iff_compatible analysed analysed).2.2]
  constructor
  · rintro ⟨operations, errors⟩
    exact ⟨fun o member _ => operations o member, fun e member _ => errors e member⟩
  · rintro ⟨operations, errors⟩
    refine ⟨fun o member => ?_, fun e member => ?_⟩
    · by_cases last : successor? s o = some o
      · exact operation_compatible_self navigable unambiguous member last
      · exact operations o member last
    · by_cases last : laterError? s e = some e
      · exact error_compatible_self navigable unambiguous member last
      · exact errors e member last

/-- Of two analyses of a source, every type of the first is compatible with itself in the second. The
check of the first against the second ends, and it finds an issue exactly if a declaration with a
later one of its name is not compatible with that one. -/
theorem self_compatibility {files : FileTree} {file source : String} {tree tree' : SchemaTree}
    {first second : Schema} (parsed : SchemaTree.parse files file source = .ok tree)
    (accepted : (ofTree tree).analyse = .ok first)
    (parsed' : SchemaTree.parse files file source = .ok tree')
    (accepted' : (ofTree tree').analyse = .ok second) :
    (∀ t, first.Known t.base →
      (toServer first second).Compatible t t ∧ (toClient first second).Compatible t t) ∧
    ∃ found, checkCompatibility first second = .ok found ∧
      (found = [] ↔
        (∀ o ∈ first.operations, successor? second o ≠ some o → OperationCompatible first second o) ∧
          ∀ e ∈ first.errors, laterError? second e ≠ some e → ErrorCompatible first second e) ∧
      ((first.operations.map (·.name)).Nodup → (first.errors.map (·.name)).Nodup → found = []) := by
  obtain rfl : tree = tree' := Except.ok.inj (parsed.symm.trans parsed')
  obtain rfl : first = second := Except.ok.inj (accepted.symm.trans accepted')
  have analysed : first.Analysed := .source parsed accepted
  have navigable := Analysed.navigable analysed
  have unambiguous := unambiguous_of_source parsed accepted
  have silent := issues_self_iff analysed unambiguous
  refine ⟨fun t known => ⟨?_, ?_⟩, _, check_compatibility_ok navigable navigable, silent, ?_⟩
  · exact compatible_self navigable unambiguous known
  · exact compatible_self navigable unambiguous known
  · intro operations errors
    refine silent.mpr ⟨fun o member other => ?_, fun e member other => ?_⟩
    · exact absurd (last_of_distinct operations member) other
    · exact absurd (last_of_distinct errors member) other

def quarrels : String :=
  "type Quarrel \x7b about: Topics parties: Party[] next: Quarrel? \x7d\ntype Topics Topic[]?\n" ++
    "type Topic enum \x7b money \x7b sum: decimal over: Quarrel? \x7d honour \x7d\n" ++
    "type Party \x7b name: string foes: Party[] \x7d\nfn settle(quarrel: Quarrel?): Party[]\n" ++
    "fn open(topic: Topic): Quarrel\nerror Unsettled: Topics"

theorem quarrels_compatible : ∃ tree first, SchemaTree.parse ⟨[], []⟩ "-" quarrels = .ok tree ∧
    (ofTree tree).analyse = .ok first ∧ first.structs.size = 3 ∧
    checkCompatibility first first = .ok [] := by
  have compiles : ((SchemaTree.parse ⟨[], []⟩ "-" quarrels).toOption.bind fun tree =>
      (ofTree tree).analyse.toOption.map fun first => decide (first.structs.size = 3 ∧
        (first.operations.map (·.name)).Nodup ∧ (first.errors.map (·.name)).Nodup)) =
          some true := by
    simp only [SchemaTree.parse_by_chars]
    decide +kernel
  obtain ⟨tree, parsed, compiles⟩ := Option.bind_eq_some_iff.mp compiles
  obtain ⟨first, accepted, compiles⟩ := Option.map_eq_some_iff.mp compiles
  obtain ⟨size, operations, errors⟩ := of_decide_eq_true compiles
  have parsed := ok_of_to_option parsed
  have accepted := ok_of_to_option accepted
  obtain ⟨_, found, checked, _, silent⟩ := self_compatibility parsed accepted parsed accepted
  rw [silent operations errors] at checked
  exact ⟨tree, first, parsed, accepted, size, checked⟩

/-- The result of a function is compared with that of a later function of its name. -/
theorem repeated_function_breaks : ∃ tree first,
    SchemaTree.parse ⟨[], []⟩ "-" "fn f(): int\nfn f(): string" = .ok tree ∧
    (ofTree tree).analyse = .ok first ∧
    checkCompatibility first first = .ok [⟨"f.ret", .incompatible "int" "string"⟩] := by
  have compiles : ((SchemaTree.parse ⟨[], []⟩ "-" "fn f(): int\nfn f(): string").toOption.bind
      fun tree => (ofTree tree).analyse.toOption.map fun first =>
        decide ((checkCompatibility first first).toOption =
          some [⟨"f.ret", .incompatible "int" "string"⟩])) = some true := by
    simp only [SchemaTree.parse_by_chars]
    decide +kernel
  obtain ⟨tree, parsed, compiles⟩ := Option.bind_eq_some_iff.mp compiles
  obtain ⟨first, accepted, compiles⟩ := Option.map_eq_some_iff.mp compiles
  exact ⟨tree, first, ok_of_to_option parsed, ok_of_to_option accepted,
    ok_of_to_option (of_decide_eq_true compiles)⟩

end Compatibility

end ApiSchema
