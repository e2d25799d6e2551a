import ApiSchema.Compatibility.Directions
import ApiSchema.Proofs.Analysis.Following
import ApiSchema.Proofs.Compatibility.Coinduction

/-! The checks of the two directions are one comparison of what is sent with what is received. Where
the schemas have been accepted, no reference stops them, and they come to their end. -/

namespace ApiSchema

namespace Schema

variable {s : Schema} {t : TypeUse} {ds : List Definition}

theorem Passed.navigable (passed : s.Passed) : s.Navigable := ⟨passed.resolved, passed.trails⟩

theorem subject_known (resolved : s.Resolved) (known : s.Known t.base) :
    s.Known (s.subject t).base :=
  (stands_subject resolved known).1.known known

theorem ahead_le (trail : s.Trail t.base ds) :
    suffixesAhead t ds ≤ t.suffixes.length + s.suffixCount := by
  have passed : total (ds.map (·.type.suffixes.length)) ≤
      total ((s.definitions.map (·.type)).map (·.suffixes.length)) := by
    rw [List.map_map]
    exact trail.total_le (·.type.suffixes.length)
  unfold suffixesAhead suffixCount
  dsimp only
  omega

end Schema

namespace Transfer

open Schema

variable {x : Transfer} {f : Findings} {path : String} {sent received : TypeUse}

def depth (x : Transfer) (sent received : TypeUse) : Nat :=
  x.bound + sent.suffixes.length + received.suffixes.length

/-- What takes the place of a comparison below its depth is never used. -/
theorem compare_down_within (sender : x.sender.Navigable) (receiver : x.receiver.Navigable)
    (known : x.sender.Known sent.base) (known' : x.receiver.Known received.base)
    (bottom : Comparison) {n : Nat} (deep : x.depth sent received ≤ n) :
    x.compareDown bottom n f path sent received =
      x.compareWithin (x.depth sent received) f path sent received := by
  obtain ⟨k, rfl⟩ := Nat.exists_eq_add_of_le deep
  obtain ⟨ds, trail⟩ := sender.trails known
  obtain ⟨es, trail'⟩ := receiver.trails known'
  have ahead := ahead_le trail
  have ahead' := ahead_le trail'
  rw [compare_down_add]
  refine (coincide_down sender receiver _ _ f path sent received ds es known known' trail trail' ?_).symm
  have enough := x.enough_bound f
  unfold depth span at *
  omega

theorem compare_within_eq_down (n : Nat) :
    x.compareWithin n = x.compareDown (fun f _ _ _ => f) n := by
  induction n with
  | zero => rfl
  | succ n ih => exact congrArg x.compareStep ih

theorem compare_within_depth (f : Findings) (path : String) (sender : x.sender.Navigable) (receiver : x.receiver.Navigable)
    (known : x.sender.Known sent.base) (known' : x.receiver.Known received.base)
    (written : x.sender.Written sent) (written' : x.receiver.Written received) :
    x.compareWithin (x.depth sent received) f path sent received =
      x.compare f path sent received := by
  rw [compare_within_eq_down]
  apply ends_of_navigable sender receiver _ _ _ f path sent received known known' written written'
  unfold depth
  omega

end Transfer

namespace Compatibility

open Schema Transfer

variable {old new : Schema} {check : Check} {compare : Comparison}

theorem foldl_ok {α : Type} {step : Findings → α → Except ResolveError Findings}
    {plain : Findings → α → Findings} {items : List α}
    (each : ∀ a ∈ items, ∀ f, step f a = .ok (plain f a)) (f : Findings) :
    items.foldlM step f = .ok (items.foldl plain f) := by
  induction items generalizing f with
  | nil => rfl
  | cons a rest ih =>
    rw [List.foldlM_cons, each a (List.mem_cons_self ..)]
    exact ih (fun b member => each b (List.mem_cons_of_mem _ member)) _

theorem nullable_ok (resolved : new.Resolved) {t : TypeUse} (known : new.Known t.base) :
    nullable new t = .ok (new.admitsNull t) := by
  rw [nullable, unwrap_subject resolved known]
  rfl

section Clients

def FromClients (old new : Schema) (check : Check) (compare : Comparison) : Prop :=
  ∀ f path a b, old.Known a.base → new.Known b.base → check f path a b = .ok (compare f path a b)

theorem client_field_ok (resolved : new.Resolved) {known : List Field} {field : Field}
    (same : ∀ own ∈ known, ∀ f path,
      check f path own.type field.type = .ok (compare f path own.type field.type))
    (behind : new.Known field.type.base) (path : String) (f : Findings) :
    clientField new check path known f field =
      .ok ((toServer old new).compareField compare path known f field) := by
  unfold clientField compareField
  dsimp only
  cases found : lastField? known field.name with
  | some own => exact same own (mem_of_last_field found).1 _ _
  | none =>
    simp only [nullable_ok resolved behind]
    change (if new.admitsNull field.type then _ else _) =
      Except.ok (if new.admitsNull field.type then _ else _)
    cases new.admitsNull field.type <;> rfl

theorem client_structs_ok (same : FromClients old new check compare) (resolved : new.Resolved)
    {a b : Option StructId} (known : ∀ t ∈ a, old.Known (.struct t))
    (known' : ∀ t ∈ b, new.Known (.struct t)) (f : Findings) (path : String) :
    clientStructs old new check f path a b =
      .ok ((toServer old new).compareStructs compare f path a b) := by
  unfold clientStructs compareStructs toServer
  dsimp only
  cases f.met.contains ⟨.toServer, a, b⟩ with
  | true => rfl
  | false =>
    refine foldl_ok (fun field member g => ?_) _
    have behind := known_of_data_fields known' member
    refine client_field_ok resolved (fun own held _ _ => ?_) behind path g
    exact same _ _ _ _ (known_of_data_fields known held) behind

theorem client_value_ok (same : FromClients old new check compare) (resolved : new.Resolved)
    {values : List EnumValue} {v : EnumValue} (known : ∀ t ∈ v.data, old.Known (.struct t))
    (known' : ∀ w ∈ values, ∀ t ∈ w.data, new.Known (.struct t)) (path : String) (f : Findings) :
    clientValue old new check path values f v =
      .ok ((toServer old new).compareValue compare path values f v) := by
  unfold clientValue compareValue
  cases found : lastValue? values v.text with
  | none => rfl
  | some later =>
    exact client_structs_ok same resolved known (known' later (mem_of_last_value found).1) f _

theorem client_bases_ok (same : FromClients old new check compare) (resolved : new.Resolved)
    {a b : TypeBase} (known : old.Known a) (known' : new.Known b) (f : Findings) (path : String) :
    clientBases old new check f path a b = .ok ((toServer old new).compareBases compare f path a b) := by
  unfold clientBases compareBases
  cases a <;> cases b
  case struct.struct t u =>
    refine client_structs_ok same resolved ?_ ?_ f path
    · rintro _ ⟨⟩
      exact known
    · rintro _ ⟨⟩
      exact known'
  case enum.enum d e =>
    refine foldl_ok (fun v member g => ?_) f
    exact client_value_ok same resolved (fun t data => known.reaches (.single (.value member data)))
      (fun w member' t data => known'.reaches (.single (.value member' data))) path g
  case primitive.primitive k l =>
    by_cases wider : k.widensTo l = true <;> by_cases equal : (k == l) = true <;>
      simp [Schema.widens, wider, equal] <;> rfl
  all_goals exact (apply_ite Except.ok _ _ _).symm

theorem client_step_ok (same : FromClients old new check compare) (older : old.Resolved)
    (newer : new.Resolved) :
    FromClients old new (clientToServerStep old new check)
      ((toServer old new).compareStep compare) := by
  intro f path a b known known'
  have behind := subject_known older known
  have behind' := subject_known newer known'
  unfold clientToServerStep compareStep
  simp only [unwrap_subject older known, unwrap_subject newer known', bind, Except.bind, toServer]
  generalize old.subject a = S at *
  generalize new.subject b = R at *
  obtain ⟨suffixes, base⟩ := S
  obtain ⟨suffixes', base'⟩ := R
  rcases suffixes with _ | ⟨_ | _, inner⟩ <;> rcases suffixes' with _ | ⟨_ | _, expected⟩
  case nil.nil => exact client_bases_ok same newer behind behind' f path
  all_goals first | exact same _ _ _ _ behind behind' | rfl

theorem client_to_server_ok (older : old.Resolved) (newer : new.Resolved) (bottom : Comparison)
    (n : Nat) :
    FromClients old new (clientToServer old new (total bottom) n)
      ((toServer old new).compareDown bottom n) := by
  induction n with
  | zero => exact fun _ _ _ _ _ _ => rfl
  | succ n ih => exact client_step_ok ih older newer

end Clients

section Servers

def FromServer (old new : Schema) (check : Check) (compare : Comparison) : Prop :=
  ∀ f path a b, old.Known a.base → new.Known b.base → check f path a b = .ok (compare f path b a)

theorem server_field_ok (resolved : old.Resolved) {known : List Field} {field : Field}
    (same : ∀ later ∈ known, ∀ f path,
      check f path field.type later.type = .ok (compare f path later.type field.type))
    (behind : old.Known field.type.base) (path : String) (f : Findings) :
    serverField old check path known f field =
      .ok ((toClient old new).compareField compare path known f field) := by
  unfold serverField compareField
  dsimp only
  cases found : lastField? known field.name with
  | some later => exact same later (mem_of_last_field found).1 _ _
  | none =>
    simp only [unwrap_subject resolved behind]
    change (if (old.subject field.type).isOptional then _ else _) =
      Except.ok (if old.admitsNull field.type then _ else _)
    unfold admitsNull
    cases (old.subject field.type).isOptional <;> rfl

theorem server_structs_ok (same : FromServer old new check compare) (resolved : old.Resolved)
    {a b : Option StructId} (known : ∀ t ∈ a, old.Known (.struct t))
    (known' : ∀ t ∈ b, new.Known (.struct t)) (f : Findings) (path : String) :
    serverStructs old new check f path a b =
      .ok ((toClient old new).compareStructs compare f path b a) := by
  unfold serverStructs compareStructs toClient
  dsimp only
  cases f.met.contains ⟨.toClient, b, a⟩ with
  | true => rfl
  | false =>
    refine foldl_ok (fun field member g => ?_) _
    have behind := known_of_data_fields known member
    refine server_field_ok resolved (fun later held _ _ => ?_) behind path g
    exact same _ _ _ _ behind (known_of_data_fields known' held)

theorem server_value_ok (same : FromServer old new check compare) (resolved : old.Resolved)
    {values : List EnumValue} {v : EnumValue} (known : ∀ w ∈ values, ∀ t ∈ w.data, old.Known (.struct t))
    (known' : ∀ t ∈ v.data, new.Known (.struct t)) (path : String) (f : Findings) :
    serverValue old new check path values f v =
      .ok ((toClient old new).compareValue compare path values f v) := by
  unfold serverValue compareValue
  cases found : lastValue? values v.text with
  | none => rfl
  | some earlier =>
    exact server_structs_ok same resolved (known earlier (mem_of_last_value found).1) known' f _

theorem server_bases_ok (same : FromServer old new check compare) (resolved : old.Resolved)
    {a b : TypeBase} (known : old.Known a) (known' : new.Known b) (f : Findings) (path : String) :
    serverBases old new check f path a b = .ok ((toClient old new).compareBases compare f path b a) := by
  unfold serverBases compareBases
  cases a <;> cases b
  case struct.struct t u =>
    refine server_structs_ok same resolved ?_ ?_ f path
    · rintro _ ⟨⟩
      exact known
    · rintro _ ⟨⟩
      exact known'
  case enum.enum d e =>
    refine foldl_ok (fun v member g => ?_) f
    exact server_value_ok same resolved
      (fun w member' t data => known.reaches (.single (.value member' data)))
      (fun t data => known'.reaches (.single (.value member data))) path g
  case primitive.primitive k l =>
    dsimp only
    rw [BEq.comm (b := k)]
    by_cases wider : l.widensTo k = true <;> by_cases equal : (k == l) = true <;>
      simp [Schema.widens, wider, equal] <;> rfl
  all_goals exact (apply_ite Except.ok _ _ _).symm

theorem server_step_ok (same : FromServer old new check compare) (older : old.Resolved)
    (newer : new.Resolved) :
    FromServer old new (serverToClientStep old new check)
      ((toClient old new).compareStep compare) := by
  intro f path a b known known'
  have behind := subject_known older known
  have behind' := subject_known newer known'
  unfold serverToClientStep compareStep
  simp only [unwrap_subject older known, unwrap_subject newer known', bind, Except.bind, toClient]
  generalize old.subject a = R at *
  generalize new.subject b = S at *
  obtain ⟨suffixes, base⟩ := S
  obtain ⟨suffixes', base'⟩ := R
  rcases suffixes with _ | ⟨_ | _, inner⟩ <;> rcases suffixes' with _ | ⟨_ | _, expected⟩
  case nil.nil => exact server_bases_ok same older behind behind' f path
  all_goals first | exact same _ _ _ _ behind behind' | rfl

theorem server_to_client_ok (older : old.Resolved) (newer : new.Resolved) (bottom : Comparison)
    (n : Nat) :
    FromServer old new
      (serverToClient old new (total fun f path a b => bottom f path b a) n)
      ((toClient old new).compareDown bottom n) := by
  induction n with
  | zero => exact fun _ _ _ _ _ _ => rfl
  | succ n ih => exact server_step_ok ih older newer

end Servers

section Versions

variable {a b : TypeUse}

theorem depth_to_client (old new : Schema) (a b : TypeUse) :
    depth old new a b = (toClient old new).depth b a := by
  simp only [depth, Transfer.depth, Transfer.bound, toClient]
  rw [Nat.mul_comm (old.structs.size + 1), Nat.add_comm old.suffixCount, Nat.add_right_comm]

theorem check_clients_ok (older : old.Navigable) (newer : new.Navigable) (known : old.Known a.base)
    (known' : new.Known b.base) (written : old.Written a) (written' : new.Written b) (f : Findings)
    (path : String) : checkClients old new f path a b = .ok ((toServer old new).compare f path a b) := by
  have ends := compare_within_depth (x := toServer old new) f path older newer known known' written
    written'
  rw [compare_within_eq_down] at ends
  rw [← ends]
  exact client_to_server_ok older.resolved newer.resolved _ _ f path a b known known'

theorem check_servers_ok (older : old.Navigable) (newer : new.Navigable) (known : old.Known a.base)
    (known' : new.Known b.base) (written : old.Written a) (written' : new.Written b) (f : Findings)
    (path : String) : checkServers old new f path a b = .ok ((toClient old new).compare f path b a) := by
  have ends := compare_within_depth (x := toClient old new) f path newer older known' known written'
    written
  rw [compare_within_eq_down] at ends
  rw [← ends, checkServers, depth_to_client]
  exact server_to_client_ok older.resolved newer.resolved _ _ f path a b known known'

theorem check_operation_ok (older : old.Navigable) (newer : new.Navigable) {o : Operation}
    (member : o ∈ old.operations) (f : Findings) :
    checkOperation old new f o = .ok (compareOperation old new f o) := by
  unfold checkOperation compareOperation
  cases found : new.operations.reverse.find? (·.name == o.name) with
  | none => rfl
  | some p =>
    have member' := (mem_of_successor found).1
    dsimp only
    rw [check_servers_ok older newer (known_of_declares (.returns member))
      (known_of_declares (.returns member')) (.returns member) (.returns member')]
    refine foldl_ok (fun field given g => ?_) _
    obtain ⟨id, held, rfl⟩ := List.mem_map.mp given
    have behind := known_of_declares (.argument member' (.inr held))
    refine client_field_ok newer.resolved (fun own present _ _ => ?_) behind _ g
    obtain ⟨arg, held', rfl⟩ := List.mem_map.mp present
    exact check_clients_ok older newer (known_of_declares (.argument member (.inr held'))) behind
      (.field arg) (.field id) _ _

theorem check_error_ok (older : old.Navigable) (newer : new.Navigable) {e : ErrorKind}
    (member : e ∈ old.errors) (f : Findings) :
    checkError old new f e = .ok (compareError old new f e) := by
  unfold checkError compareError
  cases found : new.errors.reverse.find? (·.name == e.name) with
  | none => rfl
  | some later =>
    have member' := (mem_of_later_error found).1
    exact check_servers_ok older newer (known_of_declares (.error member))
      (known_of_declares (.error member')) (.data member) (.data member') f _

theorem check_compatibility_ok (older : old.Navigable) (newer : new.Navigable) :
    checkCompatibility old new = .ok (issues old new) := by
  have operations : old.operations.foldlM (checkOperation old new) {} =
      .ok (old.operations.foldl (compareOperation old new) {}) :=
    foldl_ok (fun _ member => check_operation_ok older newer member) {}
  have errors : ∀ f, old.errors.foldlM (checkError old new) f =
      .ok (old.errors.foldl (compareError old new) f) :=
    foldl_ok fun _ member => check_error_ok older newer member
  unfold checkCompatibility
  rw [operations]
  simp only [bind, Except.bind, errors]
  rfl

end Versions

end Compatibility

namespace Schema

open Compatibility

/-- The analysis is never stopped by a reference that has no type. In what it accepts there are no
cycles of aliases: types are followed to their end, and neither a question about the transport of a
type nor the check against another version is stopped by a reference. -/
theorem references_end {s : Schema} (submitted : s.Submitted) :
    (∀ e, s.analyse ≠ .error (.unresolved e)) ∧
      ∀ final, s.analyse = .ok final → final.Followable ∧
        (∀ t, final.Known t.base → ∃ answer, final.isRestType t = .ok answer) ∧
        ∀ other : Schema, other.Passed →
          checkCompatibility final other = .ok (issues final other) ∧
            checkCompatibility other final = .ok (issues other final) := by
  refine ⟨submitted.analyse_ne_unresolved, fun final accepted => ?_⟩
  have passed : final.Passed := ⟨s, submitted, accepted⟩
  refine ⟨passed.followable, fun t known => rest_type_ok passed.resolved known, fun other passed' => ?_⟩
  exact ⟨check_compatibility_ok passed.navigable passed'.navigable,
    check_compatibility_ok passed'.navigable passed.navigable⟩

def forests : String :=
  "type Forest Trees?\ntype Trees Tree[]\ntype Tree \x7b rest: Forest \x7d\nfn plant(forest: Forest): Tree"

theorem forests_end : ∃ s final : Schema, s.Submitted ∧ s.analyse = .ok final ∧
    final.Followable ∧ checkCompatibility final final = .ok [] ∧
    ∃ d ∈ final.definitions, d.name = "Forest" ∧
      ∃ u, final.follow 4 d.type = some u ∧ IsEnd u := by
  have checked : ((SchemaTree.parse ⟨[], []⟩ "-" forests).toOption.bind fun tree =>
      (ofTree tree).analyse.toOption.bind fun final => final.definitions.head?.map fun d =>
        decide (d.name = "Forest" ∧ issues final final = [] ∧
          (final.follow 4 d.type).map (·.suffixes) = some [] ∧
          (final.follow 4 d.type).map (·.base) = some (.struct 0))) = some true := by
    simp only [SchemaTree.parse_by_chars]
    decide +kernel
  obtain ⟨tree, _, checked⟩ := Option.bind_eq_some_iff.mp checked
  obtain ⟨final, found, checked⟩ := Option.bind_eq_some_iff.mp checked
  obtain ⟨d, first, checked⟩ := Option.map_eq_some_iff.mp checked
  obtain ⟨named, none, bare, struct⟩ := of_decide_eq_true checked
  have accepted := ok_of_to_option found
  have submitted : (ofTree tree).Submitted := .tree tree
  obtain ⟨followable, _, checks⟩ := (references_end submitted).2 final accepted
  have same := (checks final ⟨_, submitted, accepted⟩).1
  rw [none] at same
  obtain ⟨u, followed, bare⟩ := Option.map_eq_some_iff.mp bare
  rw [followed] at struct
  refine ⟨_, final, submitted, accepted, followable, same, d, List.mem_of_head? first, named, u,
    followed, bare, fun name location reference => ?_⟩
  rw [Option.map_some, reference] at struct
  cases struct

end Schema

end ApiSchema
