import ApiSchema.Proofs.Analysis.Aliases
import ApiSchema.Proofs.Analysis.Recursion

/-! When every value of a type holds another value of a named type. The search for that goes through
each alias once, for all values of an enum together; so it says nothing wrong of types that it finds,
and misses none in which the values of an enum do not share an alias of the name. -/

namespace ApiSchema.Schema

open AliasSearch

/-- So many aliases, none of which is the name itself, stand for a name. -/
inductive Chains (s : Schema) (name : String) : Nat → String → Prop where
  | here : Chains s name 0 name
  | behind {n other next} (plain : other ≠ name) (onward : s.link other = .onward next)
    (rest : Chains s name n next) : Chains s name (n + 1) other

/-- Every value of a type holds a value of a named type: it is one, a field of a struct does, or what
comes with each of the values of an enum does. -/
inductive Needs (s : Schema) (name : String) : TypeUse → Prop where
  | reference {n other location} (chains : s.Chains name n other) :
    Needs s name ⟨[], .reference other location⟩
  | field {t id} (held : id ∈ (s.struct t).fields) (rest : Needs s name (s.field id).type) :
    Needs s name ⟨[], .struct t⟩
  | values {e} (data : EnumValue → StructId)
    (each : ∀ v ∈ (s.enum e).values, v.data = some (data v))
    (rest : ∀ v ∈ (s.enum e).values, Needs s name ⟨[], .struct (data v)⟩) : Needs s name ⟨[], .enum e⟩

/-- One step of the search into what each value of a type holds. -/
inductive Demands (s : Schema) : TypeUse → TypeUse → Prop where
  | field {t id} (held : id ∈ (s.struct t).fields) : Demands s ⟨[], .struct t⟩ (s.field id).type
  | value {e v t} (member : v ∈ (s.enum e).values) (data : v.data = some t) :
    Demands s ⟨[], .enum e⟩ ⟨[], .struct t⟩

/-- What each value of a type holds refers to a name by no alias. -/
def Spelled (s : Schema) (name : String) (t : TypeUse) : Prop :=
  ∀ other location n, Relation.ReflTransGen s.Demands t ⟨[], .reference other location⟩ →
    s.Chains name n other → other = name

/-- The values of an enum do not share an alias of a name: there is one value, or no such alias. -/
def Separate (s : Schema) (name : String) (t : TypeUse) : Prop :=
  ∀ e, Relation.ReflTransGen s.Demands t ⟨[], .enum e⟩ →
    (∃ v, (s.enum e).values = [v]) ∨ s.Spelled name ⟨[], .enum e⟩

variable {s : Schema} {name : String}

section Run

variable {fuel : Nat} {seen : List String}

theorem requires_reference {other : String} {location : Location} :
    (s.requiresName name (fuel + 1) ⟨[], .reference other location⟩).run seen =
      if other = name then (true, seen) else
        match s.link other with
        | .onward next =>
          if other ∈ seen then (false, seen)
          else (s.requiresName name fuel ⟨[], .reference next {}⟩).run (other :: seen)
        | _ => (false, seen) := by
  have elsewhere : ∀ next location, s.requiresName name fuel ⟨[], .reference next location⟩ =
      s.requiresName name fuel ⟨[], .reference next {}⟩ := by
    intro next location
    cases fuel <;> rfl
  by_cases same : other = name
  · simp only [requiresName, same, if_true]
    rfl
  · rw [if_neg same]
    simp only [requiresName, if_neg same, Schema.link]
    cases defined : s.definition? other with
    | none => rfl
    | some d =>
      obtain ⟨_, ⟨suffixes, base⟩, _, _⟩ := d
      cases suffixes with
      | cons suffix rest => rfl
      | nil =>
        cases base with
        | reference next location =>
          dsimp only
          rw [elsewhere next location]
          exact once_run other _ seen
        | _ => rfl

theorem requires_struct (t : StructId) :
    s.requiresName name (fuel + 1) ⟨[], .struct t⟩ =
      anyOf (fun id => s.requiresName name fuel (s.field id).type) (s.struct t).fields := rfl

def valueRequires (s : Schema) (name : String) (fuel : Nat) (v : EnumValue) : AliasSearch Bool :=
  match v.data with
  | none => return false
  | some t => s.requiresName name fuel ⟨[], .struct t⟩

theorem requires_enum (e : EnumId) :
    s.requiresName name (fuel + 1) ⟨[], .enum e⟩ =
      allOf (s.valueRequires name fuel) (s.enum e).values := rfl

theorem requires_suffixed {suffix : Suffix} {suffixes : List Suffix} {base : TypeBase} :
    (s.requiresName name fuel ⟨suffix :: suffixes, base⟩).run seen = (false, seen) := by
  cases fuel <;> rfl

theorem requires_primitive {kind : Primitive} :
    (s.requiresName name fuel ⟨[], .primitive kind⟩).run seen = (false, seen) := by
  cases fuel <;> rfl

end Run

theorem Chains.of_links {s' : Schema} {n : Nat} {other : String}
    (links : ∀ first, s.link first = s'.link first) (chains : s.Chains name n other) :
    s'.Chains name n other := by
  induction chains with
  | here => exact .here
  | behind plain onward _ ih => exact .behind plain (links _ ▸ onward) ih

theorem Chains.unique {m n : Nat} {other : String} (first : s.Chains name m other)
    (second : s.Chains name n other) : m = n := by
  induction first generalizing n with
  | here =>
    cases second with
    | here => rfl
    | behind plain => exact absurd rfl plain
  | behind plain onward _ ih =>
    cases second with
    | here => exact absurd rfl plain
    | behind _ onward' rest' =>
      rw [onward] at onward'
      cases onward'
      rw [ih rest']

theorem needs_reference_iff {other : String} {location : Location} :
    s.Needs name ⟨[], .reference other location⟩ ↔ ∃ n, s.Chains name n other := by
  constructor
  · intro needs
    cases needs with
    | reference chains => exact ⟨_, chains⟩
  · exact fun ⟨_, chains⟩ => .reference chains

theorem needs_struct_iff {t : StructId} :
    s.Needs name ⟨[], .struct t⟩ ↔ ∃ id ∈ (s.struct t).fields, s.Needs name (s.field id).type := by
  constructor
  · intro needs
    cases needs with
    | field held rest => exact ⟨_, held, rest⟩
  · exact fun ⟨_, held, rest⟩ => .field held rest

theorem needs_enum_iff {e : EnumId} :
    s.Needs name ⟨[], .enum e⟩ ↔
      ∀ v ∈ (s.enum e).values, ∃ t, v.data = some t ∧ s.Needs name ⟨[], .struct t⟩ := by
  constructor
  · intro needs
    cases needs with
    | values data each rest => exact fun v member => ⟨data v, each v member, rest v member⟩
  · intro each
    refine .values (fun v => v.data.getD 0) ?_ ?_
    · intro v member
      obtain ⟨t, data, _⟩ := each v member
      simp [data]
    · intro v member
      obtain ⟨t, data, needs⟩ := each v member
      simpa [data] using needs

theorem needs_of_requires {fuel : Nat} :
    ∀ {t seen}, ((s.requiresName name fuel t).run seen).1 = true → s.Needs name t := by
  induction fuel with
  | zero => intro t seen found; cases found
  | succ fuel ih =>
    intro t seen found
    obtain ⟨suffixes, base⟩ := t
    cases suffixes with
    | cons suffix rest => rw [requires_suffixed] at found; cases found
    | nil =>
      cases base with
      | primitive kind => rw [requires_primitive] at found; cases found
      | reference other location =>
        rw [requires_reference] at found
        split at found
        · next same => exact needs_reference_iff.mpr ⟨0, same ▸ .here⟩
        · next plain =>
          split at found
          · next next onward =>
            split at found
            · cases found
            · obtain ⟨n, chains⟩ := needs_reference_iff.mp (ih found)
              exact .reference (.behind plain onward chains)
          · cases found
      | struct t =>
        rw [requires_struct] at found
        obtain ⟨id, held, before, there⟩ := exists_of_any_of found
        exact .field held (ih there)
      | enum e =>
        rw [requires_enum] at found
        refine needs_enum_iff.mpr fun v member => ?_
        obtain ⟨before, there⟩ := forall_of_all_of found v member
        unfold valueRequires at there
        split at there
        · cases there
        · next t data => exact ⟨t, data, ih there⟩

section Untouched

def Untouched (s : Schema) (name : String) (seen : List String) : Prop :=
  ∀ n other, s.Chains name (n + 1) other → other ∉ seen

theorem untouched_nil : s.Untouched name [] := by simp [Untouched]

theorem requires_of_chains {n : Nat} {other : String} (chains : s.Chains name n other) :
    ∀ {fuel seen location}, (∀ m < n, ∀ o, s.Chains name (m + 1) o → o ∉ seen) →
      unseen (s.definitions.map (·.name)) seen + 1 ≤ fuel →
        ((s.requiresName name fuel ⟨[], .reference other location⟩).run seen).1 = true := by
  induction chains with
  | here =>
    intro fuel seen location _ enough
    obtain ⟨fuel, rfl⟩ := Nat.exists_eq_add_of_le' (Nat.le_trans (Nat.le_add_left ..) enough)
    simp [requires_reference]
  | @behind n other next plain onward rest ih =>
    intro fuel seen location fresh enough
    obtain ⟨fuel, rfl⟩ := Nat.exists_eq_add_of_le' (Nat.le_trans (Nat.le_add_left ..) enough)
    have new : other ∉ seen := fresh n (Nat.lt_succ_self n) other (.behind plain onward rest)
    obtain ⟨d, _, defined, _⟩ := link_onward onward
    obtain ⟨member, named⟩ := name_of_definition defined
    have listed : other ∈ s.definitions.map (·.name) := named ▸ List.mem_map_of_mem member
    have fewer := unseen_cons listed new
    rw [requires_reference, if_neg plain]
    simp only [onward, if_neg new]
    apply ih
    · intro m less o before
      have different : o ≠ other := by
        rintro rfl
        have := before.unique (.behind plain onward rest)
        omega
      simpa [different] using fresh m (Nat.lt_succ_of_lt less) o before
    · omega

theorem requires_of_not_chains {fuel : Nat} :
    ∀ {other seen location}, (∀ n, ¬ s.Chains name n other) → s.Untouched name seen →
      ((s.requiresName name fuel ⟨[], .reference other location⟩).run seen).1 = false ∧
        s.Untouched name ((s.requiresName name fuel ⟨[], .reference other location⟩).run seen).2 := by
  induction fuel with
  | zero => exact fun _ fresh => ⟨rfl, fresh⟩
  | succ fuel ih =>
    intro other seen location away fresh
    have plain : other ≠ name := fun same => away 0 (same ▸ .here)
    rw [requires_reference, if_neg plain]
    split
    · next next onward =>
      split
      · exact ⟨rfl, fresh⟩
      · refine ih (fun n chains => away _ (.behind plain onward chains)) fun n o before => ?_
        have different : o ≠ other := fun same => away _ (same ▸ before)
        simpa [different] using fresh n o before
    · exact ⟨rfl, fresh⟩

theorem requires_reference_answers {fuel : Nat} {other : String} {location : Location}
    (enough : s.definitions.length + 1 ≤ fuel) :
    Answers (s.Untouched name) (s.requiresName name fuel ⟨[], .reference other location⟩)
      (s.Needs name ⟨[], .reference other location⟩)
      (s.Spelled name ⟨[], .reference other location⟩) := by
  have bound : ∀ seen, unseen (s.definitions.map (·.name)) seen ≤ s.definitions.length := by
    intro seen
    simpa [unseen] using List.length_filter_le _ (s.definitions.map (·.name))
  by_cases chains : ∃ n, s.Chains name n other
  · obtain ⟨n, chains⟩ := chains
    have found : ∀ {seen}, s.Untouched name seen →
        ((s.requiresName name fuel ⟨[], .reference other location⟩).run seen).1 = true := by
      intro seen fresh
      exact requires_of_chains chains (fun m _ o before => fresh m o before)
        (Nat.le_trans (Nat.succ_le_succ (bound seen)) enough)
    constructor
    · exact fun fresh => iff_of_true (found fresh) (.reference chains)
    · intro seen fresh kept
      rcases kept with missed | spelled
      · rw [found fresh] at missed
        cases missed
      · obtain ⟨fuel, rfl⟩ := Nat.exists_eq_add_of_le' (Nat.le_trans (Nat.le_add_left ..) enough)
        rw [requires_reference, if_pos (spelled other location n .refl chains)]
        exact fresh
  · have away : ∀ n, ¬ s.Chains name n other := fun n found => chains ⟨n, found⟩
    constructor
    · intro seen fresh
      rw [(requires_of_not_chains away fresh).1, needs_reference_iff]
      simp [chains]
    · exact fun fresh _ => (requires_of_not_chains away fresh).2

end Untouched

theorem Spelled.step {t next : TypeUse} (spelled : s.Spelled name t) (demands : s.Demands t next) :
    s.Spelled name next :=
  fun other location n way => spelled other location n (.head demands way)

theorem Separate.step {t next : TypeUse} (separate : s.Separate name t)
    (demands : s.Demands t next) : s.Separate name next :=
  fun e way => separate e (.head demands way)

theorem separate_of_few (few : ∀ e ∈ s.enums.toList, e.values.length ≤ 1) (t : TypeUse) :
    s.Separate name t := by
  intro e _
  have bound : (s.enum e).values.length ≤ 1 := by
    by_cases inside : e < s.enums.size
    · exact few _ (by simp [enum, inside])
    · rw [enum_of_size_le (Nat.le_of_not_lt inside)]
      exact Nat.zero_le 1
  rcases Nat.le_one_iff_eq_zero_or_eq_one.mp bound with none | single
  · refine .inr fun other location n way _ => ?_
    rcases Relation.ReflTransGen.cases_head way with same | ⟨_, demands, _⟩
    · cases same
    · cases demands with
      | value member =>
        rw [List.eq_nil_of_length_eq_zero none] at member
        cases member
  · exact .inl (List.length_eq_one_iff.mp single)

/-- Where values of enums share no alias of a name, the search finds it exactly where it is held. -/
theorem requires_answers {fuel : Nat} :
    ∀ {m t}, ¬ s.Deep m t.base → m + s.definitions.length + 1 ≤ fuel → s.Separate name t →
      Answers (s.Untouched name) (s.requiresName name fuel t) (s.Needs name t)
        (s.Spelled name t) := by
  induction fuel with
  | zero => intro m t _ enough; omega
  | succ fuel ih =>
    intro m t shallow enough separate
    have nothing : (∀ seen, (s.requiresName name (fuel + 1) t).run seen = (false, seen)) →
        ¬ s.Needs name t → Answers (s.Untouched name) (s.requiresName name (fuel + 1) t)
          (s.Needs name t) (s.Spelled name t) := by
      intro missed none
      exact ⟨fun _ => by simp [missed, none], fun fresh _ => by simpa [missed] using fresh⟩
    -- What is nested in a type is less deep than the type itself.
    have inside : ∀ {next}, s.Demands t next → s.Nests t.base next.base →
        ∃ lower, lower + s.definitions.length + 1 ≤ fuel ∧ ¬ s.Deep lower next.base := by
      intro next demands nests
      cases m with
      | zero => exact absurd (.here nests.nested) shallow
      | succ lower => exact ⟨lower, by omega, fun deep => shallow (.inside nests deep)⟩
    obtain ⟨suffixes, base⟩ := t
    cases suffixes with
    | cons suffix rest => exact nothing (fun _ => requires_suffixed) (fun needs => by cases needs)
    | nil =>
      cases base with
      | primitive kind => exact nothing (fun _ => requires_primitive) (fun needs => by cases needs)
      | reference other location => exact requires_reference_answers (by omega)
      | struct t =>
        rw [requires_struct, needs_struct_iff]
        apply Answers.any_of
        intro id held
        have demands : s.Demands ⟨[], .struct t⟩ (s.field id).type := .field held
        obtain ⟨lower, less, shallower⟩ := inside demands (.field (.inr held))
        exact (ih shallower less (separate.step demands)).mono fun spelled => spelled.step demands
      | enum e =>
        rw [requires_enum, needs_enum_iff]
        have each : ∀ v ∈ (s.enum e).values, Answers (s.Untouched name)
            (s.valueRequires name fuel v)
            (∃ t, v.data = some t ∧ s.Needs name ⟨[], .struct t⟩)
            (s.Spelled name ⟨[], .enum e⟩) := by
          intro v member
          unfold valueRequires
          cases data : v.data with
          | none => exact ⟨fun _ => by simp, fun fresh _ => fresh⟩
          | some t =>
            have demands : s.Demands ⟨[], .enum e⟩ ⟨[], .struct t⟩ := .value member data
            obtain ⟨lower, less, shallower⟩ := inside demands (.value member data)
            simpa using (ih shallower less (separate.step demands)).mono
              fun spelled => spelled.step demands
        rcases separate e .refl with ⟨v, single⟩ | spelled
        · rw [single] at each ⊢
          exact Answers.all_of_singleton (each v (List.mem_cons_self ..))
        · exact (Answers.all_of fun v member => (each v member).mono fun _ => spelled).mono
            fun _ => trivial

/-- A definition is found to be endless only if each of its values holds another one; and it is found
so if the values of its enums share no alias of it. -/
theorem is_endless_iff (grounded : s.Grounded) {d : Definition} (member : d ∈ s.definitions) :
    (s.isEndless d = true → s.Needs d.name d.type) ∧
      (s.Separate d.name d.type → (s.isEndless d = true ↔ s.Needs d.name d.type)) := by
  refine ⟨needs_of_requires, fun separate => ?_⟩
  have enough : s.nestingBound + s.definitions.length + 1 ≤ s.recursionBound := by
    have product : s.recursionBound = s.definitions.length * s.nestingBound +
        (2 * s.definitions.length + 2 * s.nestingBound + 4) := by
      simp only [recursionBound, Nat.add_mul, Nat.mul_add]
      omega
    omega
  exact (requires_answers (acyclic_iff.mp (grounded _ (.definition member))) enough separate).answer
    untouched_nil

end ApiSchema.Schema
