import ApiSchema.Proofs.Analysis.Ending
import ApiSchema.Proofs.Analysis.Labelling

/-! Types with titles. If all paths to a type have one name, and no path to another type has it, then the
naming of types gives it that name and changes nothing else. Types that are named after their paths keep
their names. -/

namespace ApiSchema

namespace Schema

/-- A title for each struct and enum behind the declarations: the name of every path to it, and that of
no path to another one. -/
structure Titles (s : Schema) (title : TypeBase → String) : Prop where
  apart : ∀ base other, s.Known base → s.Known other → base.IsNested → other.IsNested →
    title base = title other → base = other
  called : ∀ path base, s.Called path base → base.IsNested → title base = Naming.nameOfPath path
  taken : ∀ base, s.Known base → base.IsNested →
    (Naming.giveName (title base) s base).baseName base = title base

/-- Another schema that differs in the names of structs and enums alone, some of which are titles. -/
structure Retitles (s : Schema) (title : TypeBase → String) (g : Schema) : Prop where
  rest : g = { s with structs := g.structs, enums := g.enums }
  structCount : g.structs.size = s.structs.size
  enumCount : g.enums.size = s.enums.size
  struct : ∀ t, g.struct t = { s.struct t with name := (g.struct t).name }
  enum : ∀ e, g.enum e = { s.enum e with name := (g.enum e).name }
  names : ∀ base, g.baseName base = s.baseName base ∨ g.baseName base = title base

end Schema

namespace Naming

open Schema

variable {s g : Schema} {title : TypeBase → String}

theorem base_name_give_name (name : String) (base other : TypeBase) :
    (giveName name g base).baseName other = g.baseName other ∨
      other = base ∧ (giveName name g base).baseName other = name := by
  cases base with
  | struct t =>
    cases other with
    | struct u =>
      simp only [giveName, baseName, struct_setStruct]
      split
      · next same => exact .inr ⟨congrArg _ same.1, rfl⟩
      · exact .inl rfl
    | _ => exact .inl rfl
  | enum e =>
    cases other with
    | enum i =>
      simp only [giveName, baseName, enum_setEnum]
      split
      · next same => exact .inr ⟨congrArg _ same.1, rfl⟩
      · exact .inl rfl
    | _ => exact .inl rfl
  | _ => exact .inl rfl

end Naming

namespace Schema.Retitles

open Naming

variable {s g : Schema} {title : TypeBase → String} {base : TypeBase}

theorem refl (s : Schema) (title : TypeBase → String) : s.Retitles title s :=
  ⟨rfl, rfl, rfl, fun _ => rfl, fun _ => rfl, fun _ => .inl rfl⟩

variable (retitles : s.Retitles title g)

include retitles

theorem field (id : FieldId) : g.field id = s.field id := by
  rw [retitles.rest]
  rfl

theorem members (t : StructId) : (g.struct t).members = (s.struct t).members := by
  rw [retitles.struct]

theorem fields (t : StructId) : (g.struct t).fields = (s.struct t).fields := by
  rw [retitles.struct]

theorem values (e : EnumId) : (g.enum e).values = (s.enum e).values := by
  rw [retitles.enum]

theorem takes (taken : (giveName (title base) s base).baseName base = title base) :
    (giveName (title base) g base).baseName base = title base := by
  cases base with
  | struct t =>
    simp only [giveName, baseName, struct_setStruct, retitles.structCount] at taken ⊢
    by_cases inside : t < s.structs.size
    · simp [inside]
    · have outside : g.structs.size ≤ t := retitles.structCount ▸ Nat.le_of_not_lt inside
      simpa [inside, struct_of_size_le outside, struct_of_size_le (Nat.le_of_not_lt inside)] using taken
  | enum e =>
    simp only [giveName, baseName, enum_setEnum, retitles.enumCount] at taken ⊢
    by_cases inside : e < s.enums.size
    · simp [inside]
    · have outside : g.enums.size ≤ e := retitles.enumCount ▸ Nat.le_of_not_lt inside
      simpa [inside, enum_of_size_le outside, enum_of_size_le (Nat.le_of_not_lt inside)] using taken
  | primitive | reference => exact taken

theorem give_title (base : TypeBase) : s.Retitles title (giveName (title base) g base) := by
  have names : ∀ other, (giveName (title base) g base).baseName other = s.baseName other ∨
      (giveName (title base) g base).baseName other = title other := by
    intro other
    rcases base_name_give_name (title base) base other with kept | ⟨rfl, given⟩
    · rw [kept]
      exact retitles.names other
    · exact .inr given
  cases base with
  | struct t =>
    refine ⟨?_, ?_, retitles.enumCount, fun u => ?_, retitles.enum, names⟩
    · rw [retitles.rest]
      rfl
    · simpa [giveName, setStruct] using retitles.structCount
    · simp only [giveName, struct_setStruct]
      split
      · next same => rw [same.1, retitles.struct t]
      · exact retitles.struct u
  | enum e =>
    refine ⟨?_, retitles.structCount, ?_, retitles.struct, fun i => ?_, names⟩
    · rw [retitles.rest]
      rfl
    · simpa [giveName, setEnum] using retitles.enumCount
    · simp only [giveName, enum_setEnum]
      split
      · next same => rw [same.1, retitles.enum e]
      · exact retitles.enum i
  | primitive | reference => exact retitles

theorem eq_of_names (same : ∀ base, g.baseName base = s.baseName base) : g = s := by
  have structs : g.structs = s.structs := by
    refine Array.ext retitles.structCount fun i inside inside' => ?_
    have own : g.struct i = s.struct i := by
      rw [retitles.struct, show (g.struct i).name = (s.struct i).name from same (.struct i)]
    simpa [Schema.struct, inside, inside'] using own
  have enums : g.enums = s.enums := by
    refine Array.ext retitles.enumCount fun i inside inside' => ?_
    have own : g.enum i = s.enum i := by
      rw [retitles.enum, show (g.enum i).name = (s.enum i).name from same (.enum i)]
    simpa [Schema.enum, inside, inside'] using own
  rw [retitles.rest, structs, enums]

end Schema.Retitles

namespace Naming

open Schema

abbrev Holders := Table (TypeBase × List String)

def Kept (held held' : Holders) : Prop :=
  ∀ name holder, held.get? name = some holder → held'.get? name = some holder

theorem Kept.trans {held held' held'' : Holders} (first : Kept held held') (second : Kept held' held'') :
    Kept held held'' :=
  fun name holder found => second name holder (first name holder found)

variable {s : Schema} {title : TypeBase → String} {held : Holders} {n : Naming} {path : List String}

/-- Nothing but names has changed, and each name that is taken is the title of the type that has it.
Those that were taken before still are. -/
structure Resting (s : Schema) (title : TypeBase → String) (held : Holders) (n : Naming) : Prop where
  schema : s.Retitles title n.schema
  holders : ∀ name h other, n.holders.get? name = some (h, other) →
    s.Known h ∧ h.IsNested ∧ title h = name ∧ n.schema.baseName h = name
  kept : Kept held n.holders

theorem Resting.now (resting : Resting s title held n) : Resting s title n.holders n :=
  ⟨resting.schema, resting.holders, fun _ _ found => found⟩

theorem Resting.before {later : Holders} (resting : Resting s title later n) (kept : Kept held later) :
    Resting s title held n :=
  ⟨resting.schema, resting.holders, kept.trans resting.kept⟩

abbrev Rests {α : Type} (s : Schema) (title : TypeBase → String) (held : Holders)
    (m : NamingPass α) (n : Naming) (result : α → Naming → Prop) : Prop :=
  Ends m n fun a n' => Resting s title held n' ∧ result a n'

/-- The type has its title and keeps it. -/
def Entitled (title : TypeBase → String) (n : Naming) (base : TypeBase) : Prop :=
  base.IsNested → ∃ other, n.holders.get? (title base) = some (base, other)

theorem take_name_rests (titles : s.Titles title) (resting : Resting s title held n) {base : TypeBase}
    (called : s.Called path base) (nested : base.IsNested) :
    Rests s title held (takeName path base) n fun taken n' =>
      (∀ h, taken = some h → h = base) ∧ Entitled title n' base := by
  have own := titles.called path base called nested
  have given := resting.schema.give_title base
  have takes := resting.schema.takes (titles.taken base called.known nested)
  -- The types that hold names have their titles before and after.
  have holders : ∀ name h other, n.holders.get? name = some (h, other) →
      s.Known h ∧ h.IsNested ∧ title h = name ∧
        (giveName (title base) n.schema base).baseName h = name := by
    intro name h other found
    obtain ⟨known, nested', titled, named⟩ := resting.holders name h other found
    refine ⟨known, nested', titled, ?_⟩
    rcases base_name_give_name (title base) base h with same | ⟨rfl, same⟩
    · exact same.trans named
    · exact same.trans titled
  apply Within.bind
  apply Within.modify
  apply Within.bind
  apply Within.get
  dsimp only
  rw [← own]
  split
  · next free =>
    apply Within.bind
    apply Within.set
    refine Within.pure ⟨⟨given, fun name h other found => ?_, fun name holder found => ?_⟩, nofun,
      fun _ => ⟨path, ?_⟩⟩
    · rw [Table.get?_insert] at found
      split at found
      · next same =>
        cases found
        exact ⟨called.known, nested, same.symm, takes.trans same.symm⟩
      · exact holders name h other found
    · rw [Table.get?_insert, if_neg]
      · exact resting.kept name holder found
      · rintro rfl
        rw [resting.kept _ holder found] at free
        cases free
    · rw [Table.get?_insert, if_pos rfl]
  · next h other found =>
    obtain ⟨known, nested', titled, _⟩ := holders _ h other found
    cases titles.apart h base known called.known nested' nested titled
    rw [if_pos (same_type_iff.mpr ⟨rfl, rfl⟩)]
    exact Within.pure ⟨⟨given, holders, resting.kept⟩, fun _ same => (Option.some.inj same).symm,
      fun _ => ⟨other, found⟩⟩

def RestsBelow (s : Schema) (title : TypeBase → String)
    (descend : List String → TypeBase → NamingPass TypeBase) : Prop :=
  ∀ path base held n, s.Called path base → Resting s title held n →
    Rests s title held (descend path base) n fun base' n' => base' = base ∧ Entitled title n' base

variable {descend : List String → TypeBase → NamingPass TypeBase}

theorem name_field_rests (below : RestsBelow s title descend) {id : FieldId}
    (resting : Resting s title held n)
    (called : s.Called (path ++ [(s.field id).name]) (s.field id).type.base) :
    Rests s title held (nameField descend path id) n fun _ _ => True := by
  apply Within.bind
  apply Within.get
  rw [resting.schema.field]
  apply Within.bind
  apply (below _ _ held n called resting).mono
  intro base n' ⟨resting', same, _⟩
  apply Within.modify
  have kept : n'.schema.setField id { n'.schema.field id with
      type := { (n'.schema.field id).type with base } } = n'.schema := by
    rw [same, ← resting'.schema.field id]
    exact n'.schema.set_field_self id
  refine ⟨⟨?_, ?_, resting'.kept⟩, trivial⟩
  · dsimp only
    rw [kept]
    exact resting'.schema
  · dsimp only
    rw [kept]
    exact resting'.holders

theorem name_held_rests (below : RestsBelow s title descend) {members : List Member}
    {ids : List FieldId}
    (called : ∀ id, .field id ∈ members ∨ id ∈ ids →
      s.Called (path ++ [(s.field id).name]) (s.field id).type.base)
    (resting : Resting s title held n) :
    Rests s title held (do members.forM (nameMember descend path); ids.forM (nameField descend path)) n
      fun _ _ => True := by
  apply Within.bind
  apply (Within.forM resting ?_).mono
  · intro _ n' resting'
    apply (Within.forM resting' ?_).mono
    · exact fun _ n'' resting'' => ⟨resting'', trivial⟩
    · intro id member n'' resting''
      exact (name_field_rests below resting'' (called id (.inr member))).mono fun _ _ rests => rests.1
  · intro m member n' resting'
    cases m with
    | field id =>
      exact (name_field_rests below resting' (called id (.inl member))).mono fun _ _ rests => rests.1
    | spread => exact Within.pure resting'

theorem name_value_rests (below : RestsBelow s title descend) {v : EnumValue}
    (called : ∀ t, v.data = some t → s.Called (path ++ [v.text]) (.struct t))
    (resting : Resting s title held n) :
    Rests s title held (nameValue descend path v) n fun v' _ => v' = v := by
  obtain ⟨text, data, notes, location⟩ := v
  cases data with
  | none => exact Within.pure ⟨resting, rfl⟩
  | some t =>
    apply Within.bind
    apply (below _ _ held n (called t rfl) resting).mono
    intro base n' ⟨resting', same, _⟩
    subst same
    exact Within.pure ⟨resting', rfl⟩

theorem map_rests {α : Type} {f : α → NamingPass α} {items : List α} (resting : Resting s title held n)
    (each : ∀ a ∈ items, ∀ n, Resting s title held n → Rests s title held (f a) n fun b _ => b = a) :
    Rests s title held (items.mapM f) n fun results _ => results = items := by
  have run : Ends (items.mapM f) n fun results n' =>
      Resting s title held n' ∧ List.Forall₂ (fun a b => b = a) items results :=
    Within.mapM resting each
  apply run.mono
  intro results n' ⟨resting', same⟩
  exact ⟨resting', (List.forall₂_eq_eq_eq ▸ same.flip : results = items)⟩

theorem name_base_rests (titles : s.Titles title) (fuel : Nat) :
    RestsBelow s title (nameBase fuel) := by
  induction fuel with
  | zero => exact fun path base held n _ _ => Within.throw trivial
  | succ fuel below =>
    intro path base held n called resting
    cases base with
    | primitive kind => exact Within.pure ⟨resting, rfl, nofun⟩
    | reference name location => exact Within.pure ⟨resting, rfl, nofun⟩
    | struct t =>
      apply Within.bind
      apply (take_name_rests titles resting called trivial).mono
      intro taken n' ⟨resting', holder, entitled⟩
      cases taken with
      | none =>
        apply Within.bind
        apply Within.get
        dsimp only
        rw [resting'.schema.members, resting'.schema.fields, ← bind_assoc]
        apply Within.bind
        obtain ⟨other, found⟩ := entitled trivial
        apply (name_held_rests below (fun id held => called.inside (.field held)) resting'.now).mono
        intro _ n'' ⟨resting'', _⟩
        exact Within.pure ⟨resting''.before resting'.kept, rfl, fun _ => ⟨other, resting''.kept _ _ found⟩⟩
      | some h => exact Within.pure ⟨resting', holder h rfl, entitled⟩
    | enum e =>
      apply Within.bind
      apply (take_name_rests titles resting called trivial).mono
      intro taken n' ⟨resting', holder, entitled⟩
      cases taken with
      | none =>
        apply Within.bind
        apply Within.get
        dsimp only
        rw [resting'.schema.values]
        apply Within.bind
        obtain ⟨other, found⟩ := entitled trivial
        apply (map_rests resting'.now fun v member n resting =>
          name_value_rests below (fun t data => called.inside (.value member data)) resting).mono
        intro values n'' ⟨resting'', same⟩
        apply Within.bind
        apply Within.modify
        have kept : n''.schema.setEnum e { n''.schema.enum e with values } = n''.schema := by
          rw [same, ← resting''.schema.values e]
          exact n''.schema.set_enum_self e
        refine Within.pure ⟨⟨?_, ?_, resting'.kept.trans resting''.kept⟩, rfl,
          fun _ => ⟨other, resting''.kept _ _ found⟩⟩
        · dsimp only
          rw [kept]
          exact resting''.schema
        · dsimp only
          rw [kept]
          exact resting''.holders
      | some h => exact Within.pure ⟨resting', holder h rfl, entitled⟩

theorem name_type_rests (titles : s.Titles title) (bound : Nat) {t : TypeUse}
    (called : s.Called path t.base) (resting : Resting s title held n) :
    Rests s title held (nameType bound path t) n fun t' n' => t' = t ∧ Entitled title n' t.base := by
  apply Within.bind
  apply (name_base_rests titles bound path t.base held n called resting).mono
  intro base n' ⟨resting', same, entitled⟩
  subst same
  exact Within.pure ⟨resting', rfl, entitled⟩

theorem name_error_rests (titles : s.Titles title) (bound : Nat) {e : ErrorKind} (member : e ∈ s.errors)
    (resting : Resting s title held n) : Rests s title held (nameError bound e) n fun e' _ => e' = e := by
  apply Within.bind
  apply (name_type_rests titles bound (.error member) resting).mono
  intro data n' ⟨resting', same, _⟩
  subst same
  exact Within.pure ⟨resting', rfl⟩

theorem name_definition_rests (titles : s.Titles title) (bound : Nat) {d : Definition}
    (member : d ∈ s.definitions) (resting : Resting s title held n) :
    Rests s title held (nameDefinition bound d) n fun d' n' => d' = d ∧ Entitled title n' d.type.base := by
  apply Within.bind
  apply (name_type_rests titles bound (.definition member) resting).mono
  intro type n' ⟨resting', same, entitled⟩
  subst same
  exact Within.pure ⟨resting', rfl, entitled⟩

theorem name_operation_rests (titles : s.Titles title) (bound : Nat) {o : Operation}
    (member : o ∈ s.operations) (resting : Resting s title held n) :
    Rests s title held (nameOperation bound o) n fun o' _ => o' = o := by
  rw [nameOperation, ← bind_assoc]
  apply Within.bind
  apply (name_held_rests (name_base_rests titles bound) (fun id held => .argument member held)
    resting).mono
  rintro _ n' ⟨resting', -⟩
  apply Within.bind
  apply (name_type_rests titles bound (.returns member) resting').mono
  rintro returns n'' ⟨resting'', rfl, -⟩
  exact Within.pure ⟨resting'', rfl⟩

theorem name_definitions_rests (titles : s.Titles title) (bound : Nat) (resting : Resting s title [] n) :
    Rests s title [] (s.definitions.mapM (nameDefinition bound)) n fun definitions n' =>
      definitions = s.definitions ∧ ∀ d ∈ s.definitions, Entitled title n' d.type.base := by
  have run : Ends (s.definitions.mapM (nameDefinition bound)) n fun definitions n' =>
      Resting s title [] n' ∧ Kept n.holders n'.holders ∧ List.Forall₂
        (fun d d' => d = d' ∧ Entitled title n' d.type.base) s.definitions definitions := by
    apply Within.mapM_all (fun n n' => Kept n.holders n'.holders)
      (fun (d d' : Definition) n => d = d' ∧ Entitled title n d.type.base)
      (fun _ _ _ found => found) (fun _ _ _ => Kept.trans) ?_ resting ?_
    · intro d d' n n' kept ⟨same, entitled⟩
      exact ⟨same, fun nested => (entitled nested).imp fun _ => kept _ _⟩
    · intro d member n resting _
      apply (name_definition_rests titles bound member resting.now).mono
      intro d' n' ⟨resting', same, entitled⟩
      exact ⟨⟨resting'.schema, resting'.holders, nofun⟩, resting'.kept, same.symm, entitled⟩
  apply run.mono
  intro definitions n' ⟨resting', _, each⟩
  have same : s.definitions = definitions := List.forall₂_eq_eq_eq ▸ each.imp fun _ _ => And.left
  refine ⟨resting', same.symm, fun d member => ?_⟩
  obtain ⟨_, _, _, entitled⟩ := exists_right each member
  exact entitled

theorem name_all_rests (titles : s.Titles title) :
    Ends nameAll ⟨s, []⟩ fun _ n => s.Retitles title n.schema ∧
      ∀ d ∈ s.definitions, d.type.base.IsNested → n.schema.baseName d.type.base = title d.type.base := by
  have resting : Resting s title [] ⟨s, []⟩ := ⟨.refl s title, nofun, nofun⟩
  apply Within.bind
  apply Within.get
  dsimp only
  generalize s.nestingBound + 1 = bound
  apply Within.bind
  apply (map_rests resting fun e member n => name_error_rests titles bound member).mono
  intro errors n₁ ⟨resting, sameErrors⟩
  apply Within.bind
  apply (name_definitions_rests titles bound resting).mono
  intro definitions n₂ ⟨resting, sameDefinitions, entitled⟩
  apply Within.bind
  apply (map_rests resting.now fun o member n => name_operation_rests titles bound member).mono
  intro operations n₃ ⟨resting', sameOperations⟩
  apply Within.modify
  have kept : { n₃.schema with errors, definitions, operations } = n₃.schema := by
    rw [sameErrors, sameDefinitions, sameOperations, resting'.schema.rest]
  dsimp only
  rw [kept]
  refine ⟨resting'.schema, fun d member nested => ?_⟩
  obtain ⟨other, found⟩ := entitled d member nested
  obtain ⟨_, _, _, named⟩ := resting'.holders _ _ other (resting'.kept _ _ found)
  exact named

end Naming

namespace Schema

variable {s : Schema} {title : TypeBase → String}

theorem name_types_titled (grounded : s.Grounded) (titles : s.Titles title) :
    ∃ g, s.nameTypes = .ok g ∧ s.Retitles title g ∧
      ∀ d ∈ s.definitions, d.type.base.IsNested → g.baseName d.type.base = title d.type.base := by
  have run := Naming.name_all_rests titles
  cases ran : Naming.nameAll.run ⟨s, []⟩ with
  | error e =>
    have failed : s.nameTypes = .error e := by simp only [nameTypes, ran]; rfl
    have outcome := name_types_within grounded
    rw [failed] at outcome
    obtain ⟨_, path, other, base, base', called, called', nested, nested', same, differ⟩ := outcome
    have titled := titles.called path base called nested
    rw [same, ← titles.called other base' called' nested'] at titled
    cases titles.apart base base' called.known called'.known nested nested' titled
    exact absurd (.refl base) differ
  | ok r =>
    refine ⟨r.2.schema, ?_, run.of_ok ran⟩
    simp only [nameTypes, ran]
    rfl

theorem name_types_again (grounded : s.Grounded) (names : s.WellNamed) : s.nameTypes = .ok s := by
  have titles : s.Titles s.baseName := by
    refine ⟨names.apart, names.called, fun base _ nested => ?_⟩
    rcases Naming.base_name_give_name (g := s) (s.baseName base) base base with same | ⟨_, same⟩
    · exact same
    · exact same
  obtain ⟨g, named, retitles, _⟩ := name_types_titled grounded titles
  rw [named, retitles.eq_of_names fun base => (retitles.names base).elim id id]

end Schema

end ApiSchema
