import ApiSchema.Proofs.Codec.Description
import Mathlib.Logic.Relation

/-! Which types have null as a value: those whose names lead to `void` or to an optional type. -/

namespace ApiSchema.Codec

open Relation

section Chains

variable {table : TypeTable} {link : String → String → Prop} {met : List String}
  {name next last : String}

structure Ancestors (link : String → String → Prop) (met : List String) (name : String) : Prop where
  distinct : met.Nodup
  lead : ∀ first ∈ met, TransGen link first name

theorem Ancestors.none : Ancestors link [] name := ⟨.nil, nofun⟩

/-- Only names with an entry lead to others, so that there is no room for more. -/
theorem Ancestors.length_le (entries : ∀ {first next}, link first next →
    (Value.get? table (.string first)).isSome) (ancestors : Ancestors link met name) :
    met.length ≤ table.length := by
  refine Value.length_le_of_get? ancestors.distinct fun first member => ?_
  obtain ⟨next, step, _⟩ := TransGen.head'_iff.mp (ancestors.lead first member)
  exact entries step

theorem Ancestors.new (ancestors : Ancestors link met name) (once : ¬ TransGen link name name) :
    name ∉ met := fun member => once (ancestors.lead name member)

theorem Ancestors.step (ancestors : Ancestors link met name) (once : ¬ TransGen link name name)
    (step : link name next) : Ancestors link (name :: met) next := by
  refine ⟨List.nodup_cons.mpr ⟨ancestors.new once, ancestors.distinct⟩, fun first member => ?_⟩
  rcases List.mem_cons.mp member with rfl | old
  · exact .single step
  · exact (ancestors.lead first old).tail step

/-- Names do not lead to each other without end: those that are met are different entries. -/
theorem acc_of_ancestors (entries : ∀ {first next}, link first next →
    (Value.get? table (.string first)).isSome) (acyclic : ∀ name, ¬ TransGen link name name)
    {room : Nat} : ∀ {met name}, Ancestors link met name → table.length < room + met.length →
      Acc (fun next first => link first next) name := by
  induction room with
  | zero =>
    intro met name ancestors enough
    have short := ancestors.length_le entries
    omega
  | succ room ih =>
    intro met name ancestors enough
    refine ⟨_, fun next step => ih (ancestors.step (acyclic name) step) ?_⟩
    simp only [List.length_cons]
    omega

theorem acc_of_acyclic (entries : ∀ {first next}, link first next →
    (Value.get? table (.string first)).isSome) (acyclic : ∀ name, ¬ TransGen link name name)
    (name : String) : Acc (fun next first => link first next) name :=
  acc_of_ancestors entries acyclic .none (Nat.lt_succ_self table.length)

/-- The first name stands for the second one. -/
def Alias (table : TypeTable) (first next : String) : Prop :=
  Value.get? table (.string first) = some (.string next)

theorem alias_entry (step : Alias table name next) : (Value.get? table (.string name)).isSome := by
  unfold Alias at step
  simp [step]

theorem not_circular (ended : Value.get? table (.string last) = none)
    (leads : ReflTransGen (Alias table) name last) : ¬ TransGen (Alias table) name name := by
  induction leads using ReflTransGen.head_induction_on with
  | refl =>
    intro circle
    obtain ⟨next, step, _⟩ := TransGen.head'_iff.mp circle
    simpa [ended] using alias_entry step
  | head step _ ih =>
    intro circle
    obtain ⟨next, other, back⟩ := TransGen.head'_iff.mp circle
    have same := Option.some.inj (step.symm.trans other)
    cases same
    exact ih (.tail' back step)

/-- What holds of the last name and passes from each name to the one that stands for it holds of all
names that lead to the last one, when there is room for the entries of the table. -/
theorem alias_induction {motive : (fuel : Nat) → (met : List String) → (name : String) → Prop}
    (ended : Value.get? table (.string last) = none)
    (here : ∀ fuel met, last ∉ met → motive (fuel + 1) met last)
    (there : ∀ fuel met name next, Alias table name next → name ∉ met →
      ReflTransGen (Alias table) next last → motive fuel (name :: met) next →
        motive (fuel + 1) met name) :
    ∀ {fuel met name}, ReflTransGen (Alias table) name last → Ancestors (Alias table) met name →
      table.length < fuel + met.length → motive fuel met name := by
  intro fuel
  induction fuel with
  | zero =>
    intro met name _ ancestors enough
    have short := ancestors.length_le alias_entry
    omega
  | succ fuel ih =>
    intro met name leads ancestors enough
    have once := not_circular ended leads
    rcases leads.cases_head with rfl | ⟨next, step, further⟩
    · exact here fuel met (ancestors.new once)
    · refine there fuel met name next step (ancestors.new once) further ?_
      exact ih further (ancestors.step once step) (by simp only [List.length_cons]; omega)

end Chains

section Null

/-- A text leads through names of the table to `void` or to an optional type. -/
def Nullable (table : TypeTable) (type : String) : Prop :=
  ∃ last, ReflTransGen (Alias table) type last ∧ (isOptionalText last = true ∨ last = "void")

variable {w : Way} {table : TypeTable} {path name next last : String} {met : List String} {fuel : Nat}

theorem no_entry_of_null_text (plain : PlainNames table)
    (null : isOptionalText last = true ∨ last = "void") : Value.get? table (.string last) = none := by
  rcases null with optional | rfl
  · obtain ⟨inner, peeled⟩ := TypeText.peel?_of_optional_text optional
    exact plain.no_entry_peeled peeled
  · exact plain.no_entry_scalar rfl

theorem Nullable.of_alias (step : Alias table name next) (null : Nullable table next) :
    Nullable table name :=
  null.imp fun _ leads => ⟨.head step leads.1, leads.2⟩

theorem nullable_alias (plain : PlainNames table) (step : Alias table name next) :
    Nullable table name ↔ Nullable table next := by
  refine ⟨fun ⟨last, leads, null⟩ => ?_, .of_alias step⟩
  rcases leads.cases_head with rfl | ⟨other, first, further⟩
  · rw [Alias, no_entry_of_null_text plain null] at step
    cases step
  · cases Option.some.inj (step.symm.trans first)
    exact ⟨last, further, null⟩

theorem leads_of_settle (settled : settle table fuel met (.string name) = .string last) :
    ReflTransGen (Alias table) name last := by
  induction fuel generalizing met name with
  | zero =>
    cases settled
    exact .refl
  | succ fuel ih =>
    unfold settle at settled
    split at settled
    · cases settled
      exact .refl
    · split at settled
      · next type found =>
        cases type with
        | string next => exact .head found (ih settled)
        | _ => cases fuel <;> cases settled
      · cases settled
        exact .refl

theorem settle_of_leads (ended : Value.get? table (.string last) = none)
    (leads : ReflTransGen (Alias table) name last) :
    settle table (table.length + 1) [] (.string name) = .string last := by
  refine alias_induction (motive := fun fuel met name =>
    settle table fuel met (.string name) = .string last) ended ?_ ?_ leads .none (by simp)
  · exact fun fuel met _ => settle_of_no_entry ended _ _
  · intro fuel met name next step new _ ih
    rw [settle, if_neg (by simpa using new), show Value.get? table (.string name) = _ from step]
    exact ih

theorem admits_null_iff (plain : PlainNames table) :
    admitsNull table name = true ↔ Nullable table name := by
  unfold admitsNull
  constructor
  · intro admits
    split at admits
    · next last settled =>
      refine ⟨last, leads_of_settle settled, ?_⟩
      simpa using admits
    · cases admits
  · rintro ⟨last, leads, null⟩
    rw [settle_of_leads (no_entry_of_null_text plain null) leads]
    simpa using null

theorem admits_null_alias (plain : PlainNames table) (step : Alias table name next) :
    admitsNull table name = admitsNull table next := by
  rw [Bool.eq_iff_iff, admits_null_iff plain, admits_null_iff plain, nullable_alias plain step]

theorem admits_null_optional (plain : PlainNames table) {inner : String}
    (peeled : TypeText.peel? name = some (.optional, inner)) : admitsNull table name = true := by
  obtain rfl := TypeText.eq_of_peel? peeled
  exact (admits_null_iff plain).mpr ⟨_, .refl, .inl (is_optional_text_append inner)⟩

theorem entries_length_le (entries : List (Value × Value)) :
    entries.length ≤ Value.sizeEntries entries := by
  induction entries with
  | nil => exact Nat.le_refl _
  | cons entry rest ih =>
    obtain ⟨key, item⟩ := entry
    have positive := key.size_pos
    rw [Value.sizeEntries, List.length_cons]
    omega

theorem null_step (keeps : ∀ path name, w.scalar path name .void .null = .ok .null)
    {convert : Conversion} (checked : checkNull table path (.string name) .null = .ok ())
    (null : isOptionalText name = true ∨ name = "void") :
    convertStep w table convert path (.string name) .null = .ok .null := by
  have step : convertStep w table convert path (.string name) .null =
      convertNamed w table convert path name .null := by
    rw [convertStep, checked]
    rfl
  rw [step]
  rcases null with optional | rfl
  · obtain ⟨inner, peeled⟩ := TypeText.peel?_of_optional_text optional
    rw [convertNamed, peeled]
    rfl
  · exact keeps path "void"

theorem null_within (keeps : ∀ path name, w.scalar path name .void .null = .ok .null)
    (plain : PlainNames table) (more : Nat) (null : isOptionalText last = true ∨ last = "void")
    (leads : ReflTransGen (Alias table) name last) :
    convertWithin w table (table.length + 1 + more) path (.string name) .null = .ok .null := by
  have ended := no_entry_of_null_text plain null
  refine alias_induction (motive := fun fuel met name =>
    convertWithin w table (fuel + more) path (.string name) .null = .ok .null) ended ?_ ?_ leads .none
      (by simp)
  · intro fuel met _
    have checked : checkNull table path (.string last) .null = .ok () :=
      check_null_null.mpr ((admits_null_iff plain).mpr ⟨last, .refl, null⟩)
    rw [Nat.add_right_comm, convert_within_succ, null_step keeps checked null]
  · intro fuel met name next step _ further ih
    have checked : checkNull table path (.string name) .null = .ok () :=
      check_null_null.mpr ((admits_null_iff plain).mpr ⟨last, .head step further, null⟩)
    rw [Nat.add_right_comm, convert_within_succ, convert_entry (plain step) step nofun, checked]
    exact ih

theorem null_converted (keeps : ∀ path name, w.scalar path name .void .null = .ok .null)
    (plain : PlainNames table) (null : Nullable table name) :
    convert w table path (.string name) .null = .ok .null := by
  obtain ⟨last, leads, null⟩ := null
  have room : table.length + 1 ≤ bound table (.string name) .null := by
    have entries := entries_length_le table
    calc table.length + 1
        ≤ 1 * ((Value.string name).size + Value.sizeEntries table + 2) := by omega
      _ ≤ bound table (.string name) .null := Nat.mul_le_mul_right _ (by omega)
  obtain ⟨more, same⟩ := Nat.exists_eq_add_of_le room
  rw [convert, same]
  exact null_within keeps plain more null leads

theorem null_refused (plain : PlainNames table) (null : ¬ Nullable table name) :
    convert w table path (.string name) .null = .error (.error (.null path)) := by
  obtain ⟨fuel, room⟩ := exists_room table (.string name) .null
  have admits : ¬ admitsNull table name = true := mt (admits_null_iff plain).mp null
  rw [convert, room, convert_within_succ, convertStep, checkNull, if_neg admits]
  rfl

end Null

end ApiSchema.Codec
