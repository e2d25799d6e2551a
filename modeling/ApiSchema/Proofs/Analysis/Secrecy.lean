import ApiSchema.Analysis.Secrecy
import ApiSchema.Proofs.Analysis.Naming
import ApiSchema.Proofs.Analysis.Spreading
import ApiSchema.Proofs.Analysis.Stages
import ApiSchema.Proofs.Schema.OfTree

/-! The search for secrets finds one exactly where a secret lies behind a result, and the expansion
of spreads puts none there. -/

namespace ApiSchema

namespace Schema

/-- A secret field lies behind a base, however far. -/
def Exposes (s : Schema) (base : TypeBase) : Prop :=
  ∃ t id, s.Reaches base (.struct t) ∧ s.Holds t id ∧ (s.field id).secret = true

theorem exposes_of_leads {s : Schema} {first next : TypeBase} (leads : s.Leads first next)
    (exposes : s.Exposes next) : s.Exposes first := by
  obtain ⟨t, id, reaches, held⟩ := exposes
  exact ⟨t, id, .head leads reaches, held⟩

/-- The fault of a search for secrets, which is only found where a secret lies behind. -/
def FindsSecret (s : Schema) (base : TypeBase) (e : AnalysisFailure) : Prop :=
  s.Exposes base ∧ ∃ path location, e = .semantic (.secretReturned path location)

theorem finds_secret_of_leads {s : Schema} {first next : TypeBase} {e : AnalysisFailure}
    (leads : s.Leads first next) (finds : s.FindsSecret next e) : s.FindsSecret first e :=
  ⟨exposes_of_leads leads finds.1, finds.2⟩

theorem secret_field_sound {s : Schema} {descend : List String → TypeBase → Checked Unit}
    {path : List String} {t : StructId} {id : FieldId} {e : AnalysisFailure}
    (sound : ∀ path base, descend path base = .error e → s.FindsSecret base e)
    (held : s.Holds t id) (failed : s.checkSecretField descend path id = .error e) :
    s.FindsSecret (.struct t) e := by
  simp only [checkSecretField] at failed
  split at failed
  · next secret =>
    cases failed
    exact ⟨⟨t, id, .refl, held, secret⟩, _, _, rfl⟩
  · exact finds_secret_of_leads (.field held) (sound _ _ failed)

theorem secret_member_sound {s : Schema} {descend : List String → TypeBase → Checked Unit}
    {path : List String} {t : StructId} {m : Member} {e : AnalysisFailure}
    (sound : ∀ path base, descend path base = .error e → s.FindsSecret base e)
    (member : m ∈ (s.struct t).members)
    (failed : s.checkSecretMember descend path m = .error e) : s.FindsSecret (.struct t) e := by
  cases m with
  | field id => exact secret_field_sound sound (.inl member) failed
  | spread name nameLocation location =>
    exact finds_secret_of_leads (.spread member) (sound _ _ failed)

theorem secret_base_sound (s : Schema) {e : AnalysisFailure} (fuel : Nat) :
    ∀ entered path base, s.checkSecretBase fuel entered path base = .error e →
      s.FindsSecret base e := by
  induction fuel with
  | zero => intro entered path base failed; cases failed
  | succ fuel ih =>
    intro entered path base failed
    cases base with
    | primitive kind => cases failed
    | reference name location =>
      simp only [checkSecretBase] at failed
      split at failed
      · cases failed
      · split at failed
        · cases failed
        · next d defined => exact finds_secret_of_leads (.reference defined) (ih _ _ _ failed)
    | struct t =>
      simp only [checkSecretBase] at failed
      split at failed
      · cases failed
      · have sound := fun path base => ih (.struct t :: entered) path base
        cases members : (s.struct t).members.forM
            (s.checkSecretMember (s.checkSecretBase fuel (.struct t :: entered)) path) with
        | error other =>
          rw [members] at failed
          cases failed
          obtain ⟨m, member, found⟩ := forM_error members
          exact secret_member_sound sound member found
        | ok _ =>
          rw [members] at failed
          obtain ⟨id, member, found⟩ := forM_error failed
          exact secret_field_sound sound (.inr member) found
    | enum id =>
      simp only [checkSecretBase] at failed
      obtain ⟨v, member, found⟩ := forM_error failed
      split at found
      · cases found
      · next t data => exact finds_secret_of_leads (.value member data) (ih _ _ _ found)

/-- What the search is inside of once it has begun a base. -/
def entered? : TypeBase → Option Entered
  | .struct t => some (.struct t)
  | .reference name location => some (.reference name location)
  | _ => none

theorem entered_inj {first second : TypeBase} {e : Entered} (one : entered? first = some e)
    (other : entered? second = some e) : first = second := by
  cases first <;> cases second <;> simp_all [entered?] <;> grind

/-- A way of some length to a secret field that begins nothing of `entered`. -/
inductive Route (s : Schema) (entered : List Entered) : Nat → TypeBase → Prop where
  | here {t id} (free : Entered.struct t ∉ entered) (held : s.Holds t id)
    (secret : (s.field id).secret = true) : Route s entered 0 (.struct t)
  | step {n first next} (free : ∀ e, entered? first = some e → e ∉ entered)
    (leads : s.Leads first next) (rest : Route s entered n next) : Route s entered (n + 1) first

namespace Route

variable {s : Schema} {entered : List Entered}

theorem of_reaches {first : TypeBase} {t : StructId} {id : FieldId}
    (reaches : s.Reaches first (.struct t)) (held : s.Holds t id)
    (secret : (s.field id).secret = true) : ∃ n, Route s [] n first := by
  induction reaches using Relation.ReflTransGen.head_induction_on with
  | refl => exact ⟨0, .here (by simp) held secret⟩
  | head leads _ ih =>
    obtain ⟨n, route⟩ := ih
    exact ⟨n + 1, .step (by simp) leads route⟩

/-- A way that begins a base at all can be cut so that it begins there, or never does. -/
theorem avoid {n : Nat} {first : TypeBase} (route : Route s entered n first) (e : Entered) :
    Route s (e :: entered) n first ∨
      ∃ m base, m ≤ n ∧ entered? base = some e ∧ Route s entered m base := by
  induction route with
  | @here t id free held secret =>
    by_cases same : e = .struct t
    · exact .inr ⟨0, .struct t, Nat.le_refl _, by rw [same]; rfl, .here free held secret⟩
    · exact .inl (.here (by simp [free, Ne.symm same]) held secret)
  | @step n first next free leads rest ih =>
    by_cases same : entered? first = some e
    · exact .inr ⟨n + 1, first, Nat.le_refl _, same, .step free leads rest⟩
    · rcases ih with avoiding | ⟨m, base, short, begins, route⟩
      · refine .inl (.step ?_ leads avoiding)
        intro other begun member
        rcases List.mem_cons.mp member with equal | member
        · exact same (equal ▸ begun)
        · exact free other begun member
      · exact .inr ⟨m, base, by omega, begins, route⟩

/-- Of the ways that begin at a base, one does not come back to it. -/
theorem leave {e : Entered} (n : Nat) {first : TypeBase} (route : Route s entered n first)
    (begins : entered? first = some e) :
    (∃ t id, first = .struct t ∧ s.Holds t id ∧ (s.field id).secret = true) ∨
      ∃ m next, s.Leads first next ∧ Route s (e :: entered) m next := by
  induction n using Nat.strongRecOn generalizing first with
  | ind n ih =>
    cases route with
    | @here t id free held secret => exact .inl ⟨t, id, rfl, held, secret⟩
    | @step n first next free leads rest =>
      rcases rest.avoid e with avoiding | ⟨m, base, short, again, route⟩
      · exact .inr ⟨n, next, leads, avoiding⟩
      · rw [entered_inj begins again]
        exact ih m (by omega) route again

end Route

def references (s : Schema) : List TypeBase :=
  s.operations.map (·.returns.base) ++ s.fields.toList.map (·.type.base)
    ++ s.definitions.map (·.type.base)
    ++ s.structs.toList.flatMap fun t => t.members.filterMap fun m => match m with
      | .field _ => none
      | .spread name nameLocation _ => some (.reference name nameLocation)

def entries (s : Schema) : List Entered :=
  (List.range s.structs.size).map .struct ++ s.references.filterMap entered?

theorem spreads_length (ts : List Struct) :
    (ts.flatMap fun t => t.members.filterMap fun m => match m with
      | .field _ => none
      | .spread name nameLocation _ => some (TypeBase.reference name nameLocation)).length
      ≤ total (ts.map fun t => t.members.length) := by
  induction ts with
  | nil => simp [total]
  | cons t ts ih =>
    simp only [List.flatMap_cons, List.length_append, List.map_cons, total_cons]
    exact Nat.add_le_add (List.length_filterMap_le _ _) ih

theorem entries_length (s : Schema) : 2 * s.entries.length + 4 ≤ s.searchBound := by
  have spreads := spreads_length s.structs.toList
  have entered : s.entries.length ≤ s.structs.size + s.references.length := by
    have := List.length_filterMap_le entered? s.references
    simp only [entries, List.length_append, List.length_map, List.length_range]
    omega
  have count : s.references.length ≤ s.operations.length + s.fields.size + s.definitions.length
      + total (s.structs.toList.map fun t => t.members.length) := by
    simp only [references, List.length_append, List.length_map, Array.length_toList]
    omega
  simp only [searchBound]
  omega

def Listed (s : Schema) (base : TypeBase) : Prop :=
  ∀ e, entered? base = some e → e ∈ s.entries

theorem listed_of_reference {s : Schema} {base : TypeBase} (member : base ∈ s.references)
    (noStruct : ∀ t, base = .struct t → t < s.structs.size) : s.Listed base := by
  intro e begins
  cases base with
  | struct t =>
    cases begins
    simp [entries, noStruct t rfl]
  | _ => exact List.mem_append_right _ (List.mem_filterMap.mpr ⟨_, member, begins⟩)

theorem listed_next {s : Schema} {first next : TypeBase} (leads : s.Leads first next)
    (inside : ∀ t, next = .struct t → t < s.structs.size) : s.Listed next := by
  cases leads with
  | @reference name location d defined =>
    have member : d ∈ s.definitions := List.mem_of_find?_eq_some defined
    apply listed_of_reference _ inside
    simp only [references, List.mem_append, List.mem_map]
    exact .inl (.inr ⟨d, member, rfl⟩)
  | @field t id held =>
    by_cases known : id < s.fields.size
    · apply listed_of_reference _ inside
      simp only [references, List.mem_append, List.mem_map]
      exact .inl (.inl (.inr ⟨_, field_mem known, rfl⟩))
    · rw [field_of_size_le (Nat.le_of_not_lt known)]
      intro e begins
      cases begins
  | @spread t name nameLocation location member =>
    apply listed_of_reference _ (by intro t same; cases same)
    simp only [references, List.mem_append, List.mem_flatMap, List.mem_filterMap]
    exact .inr ⟨_, struct_mem (spread_inside member), _, member, rfl⟩
  | @value e v t member data =>
    intro entry begins
    cases begins
    simp [entries, inside t rfl]

theorem Route.inside {s : Schema} {entered : List Entered} {n : Nat} {base : TypeBase}
    (route : Route s entered n base) (t : StructId) (same : base = .struct t) :
    t < s.structs.size := by
  subst same
  cases route with
  | here _ held _ => exact holds_inside held
  | step _ leads _ =>
    cases leads with
    | field held => exact holds_inside held
    | spread member => exact spread_inside member

def left (s : Schema) (entered : List Entered) : Nat :=
  (s.entries.filter fun e => !entered.contains e).length

theorem left_cons {s : Schema} {e : Entered} {entered : List Entered} (listed : e ∈ s.entries)
    (free : e ∉ entered) : s.left (e :: entered) < s.left entered := by
  have fewer : (s.entries.filter fun other => !(e :: entered).contains other) =
      (s.entries.filter fun other => !entered.contains other).filter (· != e) := by
    rw [List.filter_filter]
    congr 1
    funext other
    by_cases same : other = e <;> simp [same]
  rw [left, fewer]
  apply List.length_filter_lt_length_iff_exists.mpr
  exact ⟨e, by simp [listed, free], by simp⟩

theorem secret_field_complete {s : Schema} {descend : List String → TypeBase → Checked Unit}
    {path : List String} {id : FieldId} (passed : s.checkSecretField descend path id = .ok ()) :
    (s.field id).secret = false ∧ ∃ path, descend path (s.field id).type.base = .ok () := by
  simp only [checkSecretField] at passed
  split at passed
  · cases passed
  · next safe => exact ⟨by simpa using safe, _, passed⟩

theorem struct_search {s : Schema} {fuel : Nat} {entered : List Entered} {path : List String}
    {t : StructId} (free : Entered.struct t ∉ entered)
    (passed : s.checkSecretBase (fuel + 1) entered path (.struct t) = .ok ()) :
    (∀ id, s.Holds t id → (s.field id).secret = false) ∧
      ∀ next, s.Leads (.struct t) next →
        ∃ path, s.checkSecretBase fuel (.struct t :: entered) path next = .ok () := by
  simp only [checkSecretBase, List.contains_eq_mem, decide_eq_true_eq, if_neg free] at passed
  cases members : (s.struct t).members.forM
      (s.checkSecretMember (s.checkSecretBase fuel (.struct t :: entered)) path) with
  | error e => rw [members] at passed; cases passed
  | ok _ =>
    rw [members] at passed
    have fields := forM_ok_iff.mp passed
    have members := forM_ok_iff.mp members
    have held : ∀ id, s.Holds t id → (s.field id).secret = false ∧ ∃ path,
        s.checkSecretBase fuel (.struct t :: entered) path (s.field id).type.base = .ok () := by
      intro id held
      rcases held with member | member
      · exact secret_field_complete (members _ member)
      · exact secret_field_complete (fields _ member)
    refine ⟨fun id member => (held id member).1, ?_⟩
    intro next leads
    cases leads with
    | field member => exact (held _ member).2
    | spread member => exact ⟨path, members _ member⟩

/-- A search with enough fuel passes no base from which there is a way to a secret. -/
theorem secret_base_complete {s : Schema} (fuel : Nat) :
    ∀ {entered path base n}, Route s entered n base → s.Listed base →
      2 * s.left entered + (if base.isEnum then 1 else 0) < fuel →
      s.checkSecretBase fuel entered path base ≠ .ok () := by
  induction fuel with
  | zero => intro entered path base n _ _ small; omega
  | succ fuel ih =>
    intro entered path base n route listed enough passed
    cases base with
    | primitive kind =>
      cases route with
      | step _ leads _ => cases leads
    | enum id =>
      cases route with
      | step _ leads rest =>
        cases leads with
        | value member data =>
          simp only [checkSecretBase] at passed
          have := forM_ok_iff.mp passed _ member
          rw [data] at this
          exact ih rest (listed_next (.value member data) rest.inside)
            (by simp [TypeBase.isEnum] at enough ⊢; omega) this
    | struct t =>
      have free : Entered.struct t ∉ entered := by
        cases route with
        | here free _ _ => exact free
        | step free _ _ => exact free _ rfl
      have fewer := left_cons (listed _ rfl) free
      obtain ⟨safe, passed⟩ := struct_search free passed
      rcases route.leave _ rfl with ⟨u, id, same, held, secret⟩ | ⟨m, next, leads, rest⟩
      · cases same
        rw [safe id held] at secret
        cases secret
      · obtain ⟨path, passed⟩ := passed next leads
        refine ih rest (listed_next leads rest.inside) ?_ passed
        split <;> simp [TypeBase.isEnum] at enough <;> omega
    | reference name location =>
      have free : Entered.reference name location ∉ entered := by
        cases route with
        | step free _ _ => exact free _ rfl
      have fewer := left_cons (listed _ rfl) free
      rcases route.leave _ rfl with ⟨u, id, same, held, secret⟩ | ⟨m, next, leads, rest⟩
      · cases same
      · have inside := listed_next leads rest.inside
        cases leads with
        | reference defined =>
          simp only [checkSecretBase, List.contains_eq_mem, decide_eq_true_eq, if_neg free,
            defined] at passed
          refine ih rest inside ?_ passed
          split <;> simp [TypeBase.isEnum] at enough <;> omega

theorem check_secrets_error {s : Schema} {e : AnalysisFailure} (failed : s.checkSecrets = .error e) :
    (∃ o ∈ s.operations, s.Exposes o.returns.base) ∧
      ∃ path location, e = .semantic (.secretReturned path location) := by
  obtain ⟨o, member, found⟩ := forM_error failed
  obtain ⟨exposes, fault⟩ := secret_base_sound s _ _ _ _ found
  exact ⟨⟨o, member, exposes⟩, fault⟩

theorem not_exposes_of_check_secrets {s : Schema} (passed : s.checkSecrets = .ok ())
    {o : Operation} (member : o ∈ s.operations) : ¬ s.Exposes o.returns.base := by
  rintro ⟨t, id, reaches, held, secret⟩
  obtain ⟨n, route⟩ := Route.of_reaches reaches held secret
  have listed : s.Listed o.returns.base := by
    apply listed_of_reference _ route.inside
    simp only [references, List.mem_append, List.mem_map]
    exact .inl (.inl (.inl ⟨o, member, rfl⟩))
  have enough : 2 * s.left [] + (if o.returns.base.isEnum then 1 else 0) < s.searchBound := by
    have most := s.entries_length
    have all : s.left [] ≤ s.entries.length := List.length_filter_le ..
    split <;> omega
  exact secret_base_complete _ route listed enough (forM_ok_iff.mp passed o member)

theorem check_secrets_error_iff {s : Schema} :
    (∃ e, s.checkSecrets = .error e) ↔ ∃ o ∈ s.operations, s.Exposes o.returns.base := by
  constructor
  · rintro ⟨e, failed⟩
    exact (check_secrets_error failed).1
  · rintro ⟨o, member, exposes⟩
    cases outcome : s.checkSecrets with
    | ok _ => exact absurd exposes (not_exposes_of_check_secrets outcome member)
    | error e => exact ⟨e, rfl⟩

theorem SameTypes.exposes {s s' : Schema} (same : SameTypes s s') {base : TypeBase}
    (exposes : s'.Exposes base) : s.Exposes base := by
  obtain ⟨t, id, reaches, held, secret⟩ := exposes
  exact ⟨t, id, same.reaches reaches, same.holds.mp held, same.field id ▸ secret⟩

theorem Inherits.exposes {s s' : Schema} (inherits : s.Inherits s') {base : TypeBase}
    (exposes : s'.Exposes base) : s.Exposes base := by
  obtain ⟨t, id, reaches, held, secret⟩ := exposes
  obtain ⟨u, further, held⟩ := inherits.held held
  exact ⟨u, id, (inherits.reaches reaches).trans further, held, inherits.field id ▸ secret⟩

theorem Expands.exposes {s s' : Schema} (expands : s.Expands s') {base : TypeBase}
    (exposes : s'.Exposes base) : s.Exposes base :=
  expands.inherits.exposes (expands.same_types.exposes exposes)

theorem Resembles.exposes {s s' : Schema} (same : s.SameMeanings s') {base base' : TypeBase}
    (alike : s.Resembles s' base base') (exposes : s.Exposes base) : s'.Exposes base' := by
  obtain ⟨t, id, reaches, held, secret⟩ := exposes
  obtain ⟨last, reaches', alike'⟩ := alike.reaches same reaches
  obtain ⟨t', rfl, _⟩ := alike'.struct
  obtain ⟨id', held', matched⟩ := alike'.holds held
  exact ⟨t', id', reaches', held', matched.secret ▸ secret⟩

theorem Names.exposes_iff {s g : Schema} (named : s.Names g) :
    (∃ o ∈ g.operations, g.Exposes o.returns.base) ↔
      ∃ o ∈ s.operations, s.Exposes o.returns.base := by
  have same := named.same_meanings
  constructor
  · rintro ⟨o', member, exposes⟩
    obtain ⟨o, written, replaced⟩ := exists_left named.operations member
    have alike := replaced.returns.base.trans (named.revises.resembles _)
    exact ⟨o, written, alike.symm.exposes same.symm exposes⟩
  · rintro ⟨o, member, exposes⟩
    obtain ⟨o', renamed, replaced⟩ := exists_right named.operations member
    have alike := replaced.returns.base.trans (named.revises.resembles _)
    exact ⟨o', renamed, alike.exposes same exposes⟩

theorem not_exposes_of_expanded {s s' : Schema} (accepted : s.expanded = .ok s')
    {o : Operation} (member : o ∈ s'.operations) : ¬ s'.Exposes o.returns.base := by
  intro exposes
  obtain ⟨g, _, safe, expanded⟩ := declared_of_expanded accepted
  have expands := expands_of_ok expanded
  obtain ⟨before, declared, changed⟩ := exists_left expands.operations member
  have exposes := expands.exposes exposes
  rw [changed.returns] at exposes
  exact not_exposes_of_check_secrets safe declared exposes

theorem add_fatal_exposes_iff {s : Schema} :
    (∃ o ∈ s.addFatal.operations, s.addFatal.Exposes o.returns.base) ↔
      ∃ o ∈ s.operations, s.Exposes o.returns.base := by
  have same := s.add_fatal_same_types
  rw [add_fatal_operations]
  exact ⟨fun ⟨o, member, exposes⟩ => ⟨o, member, same.exposes exposes⟩,
    fun ⟨o, member, exposes⟩ => ⟨o, member, same.symm.exposes exposes⟩⟩

/-- Once its types have names and its references definitions, a schema is refused for a secret
exactly if a result leads to one as it was written; and no result of an accepted schema does. -/
theorem secrets_never_returned (tree : SchemaTree) {g : Schema}
    (declared : (ofTree tree).declared = .ok g) :
    ((∃ e, g.checkSecrets = .error e) ↔
      ∃ o ∈ (ofTree tree).operations, (ofTree tree).Exposes o.returns.base) ∧
    (∀ e, g.checkSecrets = .error e →
      ∃ path location, e = .semantic (.secretReturned path location)) ∧
    ∀ final, (ofTree tree).analyse = .ok final →
      ∀ o ∈ final.operations, ¬ final.Exposes o.returns.base := by
  refine ⟨?_, fun e failed => (check_secrets_error failed).2, ?_⟩
  · obtain ⟨_, named, _⟩ := named_of_declared declared
    have grounded := (treelike_of_tree tree).add_fatal.grounded
    rw [check_secrets_error_iff, (names_of_name_types grounded named).exposes_iff,
      add_fatal_exposes_iff]
  · intro final accepted o member exposes
    obtain ⟨x, expanded, completed⟩ := expanded_of_analyse accepted
    obtain ⟨_, _, rfl, _⟩ := eq_collect_of_completed completed
    have same : SameTypes x x.collectTypes := ⟨rfl, rfl, rfl, rfl⟩
    exact not_exposes_of_expanded expanded member (same.exposes exposes)

def accounts (returns : TypeTree) : SchemaTree where
  types :=
    [⟨"Login", .struct "" [.field (.mk "key" (.primitive .string {}) true [] {})] [] {}, [], {}⟩,
      ⟨"User", .struct "" [.spread "Login" {} {}] [] {}, [], {}⟩]
  functions :=
    [⟨"find", [.field (.mk "like" (.reference "User" {}) false [] {})], returns, [], false, {}⟩]

theorem accounts_secrecy :
    (∃ g, (ofTree (accounts (.array (.reference "User" {}) {}))).declared = .ok g ∧
      ∃ e, g.checkSecrets = .error e) ∧
    ∃ final, (ofTree (accounts (.primitive .uint {}))).analyse = .ok final ∧
      ∀ o ∈ final.operations, ¬ final.Exposes o.returns.base := by
  constructor
  · have named : (ofTree (accounts (.array (.reference "User" {}) {}))).declared.isOk := by
      decide +kernel
    obtain ⟨g, declared⟩ := exists_of_is_ok named
    refine ⟨g, declared, (secrets_never_returned _ declared).1.mpr ?_⟩
    refine ⟨_, List.mem_singleton_self _, 0, 0, ?_, .inl (List.mem_singleton_self _), rfl⟩
    refine .head (.reference (d := ⟨"User", .ofBase (.struct 1), [], {}⟩) rfl) ?_
    exact .head (.spread (List.mem_singleton_self _))
      (.head (.reference (d := ⟨"Login", .ofBase (.struct 0), [], {}⟩) rfl) .refl)
  · have named : (ofTree (accounts (.primitive .uint {}))).declared.isOk := by decide +kernel
    have sound : (ofTree (accounts (.primitive .uint {}))).analyse.isOk := by decide +kernel
    obtain ⟨_, declared⟩ := exists_of_is_ok named
    obtain ⟨final, accepted⟩ := exists_of_is_ok sound
    exact ⟨final, accepted, (secrets_never_returned _ declared).2.2 final accepted⟩

end Schema

end ApiSchema
