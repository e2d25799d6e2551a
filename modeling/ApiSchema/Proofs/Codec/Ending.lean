import ApiSchema.Proofs.Codec.Failing
import ApiSchema.Proofs.Codec.Nulls

/-! Conversions come to an end, also by types that contain themselves, unless a name stands for
itself: with every step the value gets smaller, or a suffix is taken off, or a name is passed on to
the next one. -/

namespace ApiSchema.Codec

open Relation

/-- A text is a name that does not end in a suffix, with suffixes behind it. -/
inductive Suffixed : (text name : String) → Prop where
  | name {name} (whole : TypeText.peel? name = none) : Suffixed name name
  | suffix {text inner name suffix} (peeled : TypeText.peel? text = some (suffix, inner))
    (further : Suffixed inner name) : Suffixed text name

section Names

variable {table : TypeTable} {name next : String}

theorem exists_suffixed (text : String) : ∃ name, Suffixed text name := by
  induction length : text.length using Nat.strongRecOn generalizing text with
  | ind n ih =>
    cases peeled : TypeText.peel? text with
    | none => exact ⟨text, .name peeled⟩
    | some pair =>
      obtain ⟨suffix, inner⟩ := pair
      have shorter := (peel_starts peeled).2
      obtain ⟨name, further⟩ := ih inner.length (by omega) inner rfl
      exact ⟨name, .suffix peeled further⟩

/-- The entry of the first name is nothing but the second one with suffixes. -/
def Leads (table : TypeTable) (first next : String) : Prop :=
  ∃ text, Alias table first text ∧ Suffixed text next

theorem leads_entry (leads : Leads table name next) : (Value.get? table (.string name)).isSome :=
  leads.elim fun _ step => alias_entry step.1

/-- A value is passed on as it is from the first text to the second one. -/
def Passes (table : TypeTable) (first next : String) : Prop :=
  TypeText.peel? first = some (.optional, next) ∨
    TypeText.peel? first = none ∧ Alias table first next

/-- Where no name leads back to itself, values are passed on only so often. -/
theorem acc_passes (acyclic : ∀ name, ¬ TransGen (Leads table) name name) (text : String) :
    Acc (fun next first => Passes table first next) text := by
  obtain ⟨name, suffixed⟩ := exists_suffixed text
  induction acc_of_acyclic leads_entry acyclic name generalizing text with
  | intro name later ih =>
    induction suffixed with
    | name whole =>
      refine ⟨_, fun next passes => ?_⟩
      rcases passes with peeled | ⟨_, step⟩
      · rw [whole] at peeled
        cases peeled
      · obtain ⟨last, further⟩ := exists_suffixed next
        exact ih last ⟨next, step, further⟩ next further
    | suffix peeled _ within =>
      refine ⟨_, fun next passes => ?_⟩
      rcases passes with optional | ⟨whole, _⟩
      · cases peeled.symm.trans optional
        exact within later ih
      · rw [whole] at peeled
        cases peeled

end Names

section Steps

variable {w : Way} {table : TypeTable} {convert : Conversion} {path : String} {type value : Value}

def OfEnded (failure : CodecFailure) : Prop := failure ≠ .endless

theorem of_ended_values : AllowsValues OfEnded := by
  rintro failure raised rfl
  cases raised

theorem step_ends (inner : w.Local) (raising : w.Raising)
    (tagged : ∀ members, type = .list members → Tagged members)
    (onward : ∀ name, type = .string name → ∀ type', Onward table name value type' →
      convert path type' value ≠ .error .endless)
    (inward : ∀ path' type' value', Inward type value type' value' →
      convert path' type' value' ≠ .error .endless) :
    convertStep w table convert path type value ≠ .error .endless := by
  classical
  -- A conversion that always ends, and that differs from the given one nowhere where it is taken.
  let ending : Conversion := fun path type value =>
    if convert path type value = .error .endless then .ok .null else convert path type value
  have ended : ∀ path type value, FailsOnly OfEnded (ending path type value) := by
    intro path type value
    refine ⟨fun failure failed => ?_⟩
    rintro rfl
    dsimp only [ending] at failed
    split at failed
    · cases failed
    · next other => exact other failed
  have follows : Follows (convertStep w table ending path type value)
      (convertStep w table convert path type value) :=
    step_follows inner tagged
      (fun name same type' next _ => if_neg (onward name same type' next))
      (fun path' type' value' next _ => if_neg (inward path' type' value' next))
  have follows' : Follows (convertStep w table convert path type value)
      (convertStep w table ending path type value) :=
    step_follows inner tagged
      (fun name same type' next _ => (if_neg (onward name same type' next)).symm)
      (fun path' type' value' next _ => (if_neg (inward path' type' value' next)).symm)
  rw [follows'.antisymm follows]
  have step : FailsOnly OfEnded (convertStep w table ending path type value) :=
    .step of_ended_values raising (fun _ _ _ => nofun) fun inner _ path value => ended path inner value
  exact fun failed => step.permitted _ failed rfl

end Steps

section Conversions

variable {w : Way} {table : TypeTable} {path : String} {type value : Value}

/-- By induction on the weight of the value, and for one value on the names that it is passed on to. -/
theorem convert_ends (inner : w.Local) (raising : w.Raising) (described : Described table)
    (acyclic : ∀ name, ¬ TransGen (Leads table) name name) (description : Description type) :
    convert w table path type value ≠ .error .endless := by
  induction weight : value.weight using Nat.strongRecOn generalizing path type value with
  | ind n ih =>
    have inward : ∀ {type}, Description type → ∀ path' type' value', Inward type value type' value' →
        convert w table path' type' value' ≠ .error .endless := by
      intro type description path' type' value' inward
      exact ih value'.weight (weight ▸ (inward_weight inward).1) (description.inward inward) rfl
    have unnamed : ∀ {path type}, Description type → type.isString = false →
        convert w table path type value ≠ .error .endless := by
      intro path type description other
      rw [convert_eq inner described description]
      refine step_ends inner raising ?_ ?_ (inward description)
      · rintro members rfl
        exact description.tagged
      · rintro name rfl
        cases other
    have named : ∀ {path} text, convert w table path (.string text) value ≠ .error .endless := by
      intro path text
      induction acc_passes acyclic text generalizing path with
      | intro text _ within =>
        rw [convert_eq inner described (.name text)]
        refine step_ends inner raising nofun ?_ (inward (.name text))
        rintro _ ⟨⟩ type' onward
        cases onward with
        | optional peeled => exact within _ (.inl peeled)
        | entry whole found =>
          cases type' with
          | string next => exact within next (.inr ⟨whole, found⟩)
          | _ => exact unnamed (described _ _ found) rfl
    cases type with
    | string text => exact named text
    | _ => exact unnamed description rfl

/-- A conversion comes to an end, and more depth of calls than it has would not change its outcome. -/
structure Ends (w : Way) (table : TypeTable) (path : String) (type value : Value) : Prop where
  ended : convert w table path type value ≠ .error .endless
  stable : ∀ fuel, bound table type value ≤ fuel →
    convertWithin w table fuel path type value = convert w table path type value

theorem ends_of_acyclic (inner : w.Local) (raising : w.Raising) (described : Described table)
    (acyclic : ∀ name, ¬ TransGen (Leads table) name name) (description : Description type) :
    Ends w table path type value where
  ended := convert_ends inner raising described acyclic description
  stable _ enough := convert_within_of_bound inner described description enough

/-- Names are followed until one is met again or has no entry, of which there are no more than the
table has room for. -/
theorem settle_stable {fuel more : Nat} {met : List String} (distinct : met.Nodup)
    (entries : ∀ name ∈ met, (Value.get? table (.string name)).isSome)
    (enough : table.length < fuel + met.length) :
    settle table (fuel + more) met type = settle table fuel met type := by
  induction fuel generalizing met type with
  | zero =>
    have short := Value.length_le_of_get? distinct entries
    omega
  | succ fuel ih =>
    rw [Nat.add_right_comm]
    cases type with
    | string name =>
      unfold settle
      split
      · rfl
      · next new =>
        cases found : Value.get? table (.string name) with
        | none => rfl
        | some next =>
          refine ih (List.nodup_cons.mpr ⟨by simpa using new, distinct⟩) ?_
            (by simp only [List.length_cons]; omega)
          intro other member
          rcases List.mem_cons.mp member with rfl | old
          · simp [found]
          · exact entries other old
    | _ => rfl

/-- Over tables in which no name leads back to itself by entries that are only names, all conversions
come to an end, whatever structs and enums contain. -/
theorem conversions_end [UrlNormaliser] (described : Described table)
    (acyclic : ∀ name, ¬ TransGen (Leads table) name name) :
    (∀ type, Description type → ∀ path value,
      Ends .encoding table path type value ∧ Ends .decoding table path type value) ∧
    ∀ name more, settle table (table.length + 1 + more) [] (.string name) =
      settle table (table.length + 1) [] (.string name) := by
  refine ⟨fun type description path value => ⟨?_, ?_⟩, fun name more => ?_⟩
  · exact ends_of_acyclic encoding_local encoding_raising described acyclic description
  · exact ends_of_acyclic decoding_local decoding_raising described acyclic description
  · exact settle_stable .nil nofun (by simp)

def trees : TypeTable :=
  [(.string "Tree", .mapping [(.string "kind", .string "Kind"), (.string "parts", .string "Trees?")]),
    (.string "Trees", .string "Tree[]"),
    (.string "Kind", .list [.string "seedling", .list [.string "grafted", .string "Graft"]]),
    (.string "Graft", .mapping [(.string "stock", .string "Kind?")])]

theorem trees_end : ∃ _ : UrlNormaliser,
    (∀ value, Ends .encoding trees "tree" (.string "Tree") value) ∧
    Ends .decoding trees "kind" (.string "Kind") (.string "grafted") := by
  have described : Described trees := by
    intro name type found
    have member := Value.mem_of_get?_string found
    simp only [trees, List.mem_cons, Prod.mk.injEq, List.not_mem_nil, or_false] at member
    rcases member with ⟨_, rfl⟩ | ⟨_, rfl⟩ | ⟨_, rfl⟩ | ⟨_, rfl⟩
    · refine .struct fun key type member => ?_
      simp only [List.mem_cons, Prod.mk.injEq, List.not_mem_nil, or_false] at member
      rcases member with ⟨_, rfl⟩ | ⟨_, rfl⟩ <;> exact .name _
    · exact .name _
    · refine .enum ?_ ?_ <;>
      · intro member listed tag type pair
        simp only [List.mem_cons, List.not_mem_nil, or_false] at listed
        rcases listed with rfl | rfl <;> cases pair
        first | rfl | exact .name _
    · refine .struct fun key type member => ?_
      simp only [List.mem_cons, Prod.mk.injEq, List.not_mem_nil, or_false] at member
      obtain ⟨_, rfl⟩ := member
      exact .name _
  have only : ∀ {first next}, Leads trees first next → first = "Trees" ∧ next = "Tree" := by
    rintro first next ⟨text, step, suffixed⟩
    have member := Value.mem_of_get?_string step
    simp only [trees, List.mem_cons, Prod.mk.injEq, Value.string.injEq, reduceCtorEq, and_false,
      List.not_mem_nil, or_false, false_or] at member
    obtain ⟨rfl, rfl⟩ := member
    refine ⟨rfl, ?_⟩
    cases suffixed with
    | name whole => exact absurd whole (by decide)
    | suffix peeled further =>
      cases peeled.symm.trans (show TypeText.peel? "Tree[]" = some (.array, "Tree") by decide)
      cases further with
      | name => rfl
      | suffix peeled => exact absurd peeled (by simp [show TypeText.peel? "Tree" = none by decide])
  have acyclic : ∀ name, ¬ TransGen (Leads trees) name name := by
    intro name circle
    obtain ⟨_, ahead, _⟩ := TransGen.head'_iff.mp circle
    obtain ⟨_, _, back⟩ := TransGen.tail'_iff.mp circle
    exact absurd ((only ahead).1.symm.trans (only back).2) (by decide)
  let urls : UrlNormaliser := .refusing
  obtain ⟨ends, _⟩ := conversions_end described acyclic
  exact ⟨urls, fun value => (ends _ (.name "Tree") "tree" value).1,
    (ends _ (.name "Kind") "kind" (.string "grafted")).2⟩

/-- A name that is its own optional type is passed on without end. -/
example [UrlNormaliser] :
    decode [(.string "A", .string "A?")] "x" (.string "A") (.int 1) = .error .endless := by rfl

end Conversions

end ApiSchema.Codec
