import ApiSchema.Proofs.Analysis.Ending
import ApiSchema.Proofs.Analysis.Exploring

/-! Which definitions are refused because they refer to themselves. A name is found exactly where it is
met, whatever aliases are gone through on the way. A definition is no struct or enum and meets its own
name if references alone lead back to it, and also if a struct or an enum that is written in suffixes
does. -/

namespace ApiSchema.Schema

open AliasSearch

/-- A name is met in a base, in what is nested in it, or behind an alias in it. What has a struct or an
enum for its definition is not an alias. -/
inductive Recurs (s : Schema) (name : String) : TypeBase → Prop where
  | here {location} : Recurs s name (.reference name location)
  | behind {other location d} (defined : s.definition? other = some d)
    (plain : d.type.isNested = false) (rest : Recurs s name d.type.base) :
    Recurs s name (.reference other location)
  | field {t id} (held : id ∈ (s.struct t).fields) (rest : Recurs s name (s.field id).type.base) :
    Recurs s name (.struct t)
  | value {e v t} (member : v ∈ (s.enum e).values) (data : v.data = some t)
    (rest : Recurs s name (.struct t)) : Recurs s name (.enum e)

/-- References, arrays and optionals alone lead to a name. -/
inductive Circles (s : Schema) (name : String) : TypeUse → Prop where
  | here {suffixes location} : Circles s name ⟨suffixes, .reference name location⟩
  | behind {suffixes other location d} (defined : s.definition? other = some d)
    (rest : Circles s name d.type) : Circles s name ⟨suffixes, .reference other location⟩

/-- References, arrays and optionals lead to a struct or an enum with a suffix, which meets a name. -/
inductive Wraps (s : Schema) (name : String) : TypeUse → Prop where
  | here {suffix suffixes base} (nested : base.IsNested) (inside : s.Recurs name base) :
    Wraps s name ⟨suffix :: suffixes, base⟩
  | behind {suffixes other location d} (defined : s.definition? other = some d)
    (rest : Wraps s name d.type) : Wraps s name ⟨suffixes, .reference other location⟩

/-- What the search for a name does at a base. -/
def reachTurn (s : Schema) (name : String) : TypeBase → Turn TypeBase
  | .primitive _ => .stop false
  | .reference other _ =>
    if other = name then .stop true
    else match s.definition? other with
      | none => .stop false
      | some d => if d.type.isNested then .stop false else .onward other d.type.base
  | .struct t => .branch ((s.struct t).fields.map fun id => (s.field id).type.base)
  | .enum e => .branch ((s.enum e).values.filterMap fun v => v.data.map .struct)

def judge (s : Schema) (d : Definition) : Checked Unit :=
  if ¬ s.isRecursive d then .ok ()
  else if ¬ d.type.isNested then refuse (.recursiveAlias d.name d.location)
  else if s.isEndless d then refuse (.endlessType d.name d.location)
  else .ok ()

theorem check_recursions_eq (s : Schema) : s.checkRecursions = s.definitions.forM s.judge := rfl

variable {s : Schema} {name : String}

section Search

theorem any_of_values (test : TypeBase → AliasSearch Bool) (values : List EnumValue) :
    anyOf (fun v => match v.data with
      | none => return false
      | some t => test (.struct t)) values =
        anyOf test (values.filterMap fun v => v.data.map .struct) := by
  induction values with
  | nil => rfl
  | cons v rest ih =>
    cases data : v.data with
    | none =>
      rw [List.filterMap_cons_none (by simp [data]), ← ih]
      simp only [anyOf, data]
      rfl
    | some t =>
      rw [List.filterMap_cons_some (b := TypeBase.struct t) (by simp [data])]
      simp only [anyOf, data, ih]

theorem reaches_name_eq (fuel : Nat) (base : TypeBase) :
    s.reachesName name fuel base = explore (s.reachTurn name) fuel base := by
  induction fuel generalizing base with
  | zero => rfl
  | succ fuel ih =>
    cases base with
    | primitive kind => rfl
    | struct t =>
      simp only [reachesName, explore, reachTurn, any_of_map]
      exact congrArg (anyOf · _) (funext fun id => ih _)
    | enum e =>
      simp only [reachesName, explore, reachTurn, ← any_of_values]
      exact congrArg (anyOf · _) (funext fun v => by cases v.data <;> simp only [ih])
    | reference other location =>
      simp only [reachesName, explore, reachTurn]
      by_cases same : other = name
      · simp [same]
      · cases defined : s.definition? other with
        | none => simp [same]
        | some d =>
          cases nested : d.type.isNested with
          | true =>
            simp only [same, nested, if_true, if_false, Bool.true_or]
            rfl
          | false =>
            simp only [same, nested, if_false, Bool.false_or, Bool.false_eq_true, ih]

theorem finds_of_recurs {base : TypeBase} (recurs : s.Recurs name base) :
    Finds (s.reachTurn name) base := by
  induction recurs with
  | here => exact .stop (by simp [reachTurn])
  | @behind other location d defined plain _ ih =>
    by_cases same : other = name
    · exact .stop (by simp [reachTurn, same])
    · have turn : s.reachTurn name (.reference other location) = .onward other d.type.base := by
        simp [reachTurn, same, defined, plain]
      exact ih.step (.onward turn)
  | field held _ ih => exact ih.step (.branch rfl (List.mem_map_of_mem held))
  | value member data _ ih =>
    exact ih.step (.branch rfl (List.mem_filterMap.mpr ⟨_, member, by simp [data]⟩))

theorem recurs_of_step {base next : TypeBase} (steps : Steps (s.reachTurn name) base next)
    (recurs : s.Recurs name next) : s.Recurs name base := by
  cases steps with
  | onward here =>
    cases base with
    | reference other location =>
      simp only [reachTurn] at here
      split at here
      · cases here
      · split at here
        · cases here
        · next d defined =>
          split at here
          · cases here
          · next plain =>
            cases here
            exact .behind defined (by simpa using plain) recurs
    | _ => cases here
  | branch here member =>
    cases base with
    | struct t =>
      cases here
      obtain ⟨id, held, rfl⟩ := List.mem_map.mp member
      exact .field held recurs
    | enum e =>
      cases here
      obtain ⟨v, listed, found⟩ := List.mem_filterMap.mp member
      obtain ⟨t, data, rfl⟩ := Option.map_eq_some_iff.mp found
      exact .value listed data recurs
    | primitive kind => cases here
    | reference other location =>
      simp only [reachTurn] at here
      repeat' split at here
      all_goals cases here

theorem recurs_of_stop {base : TypeBase} (here : s.reachTurn name base = .stop true) :
    s.Recurs name base := by
  cases base with
  | reference other location =>
    simp only [reachTurn] at here
    split at here
    · next same => exact same ▸ .here
    · repeat' split at here
      all_goals cases here
  | _ => cases here

theorem recurs_iff_finds {base : TypeBase} : s.Recurs name base ↔ Finds (s.reachTurn name) base := by
  constructor
  · exact finds_of_recurs
  · intro finds
    obtain ⟨goal, way, found⟩ := finds
    induction way using Relation.ReflTransGen.head_induction_on with
    | refl => exact recurs_of_stop found
    | head steps _ ih => exact recurs_of_step steps ih

theorem reach_bounded (grounded : s.Grounded) (name : String) :
    Bounded (s.reachTurn name) (fun n base => ¬ s.Deep n base) (s.definitions.map (·.name))
      s.nestingBound where
  parts := by
    intro m base parts shallow here
    have nests : base.IsNested ∧ ∀ part ∈ parts, s.Nests base part := by
      cases base with
      | struct t =>
        cases here
        refine ⟨trivial, fun part member => ?_⟩
        obtain ⟨id, held, rfl⟩ := List.mem_map.mp member
        exact .field (.inr held)
      | enum e =>
        cases here
        refine ⟨trivial, fun part member => ?_⟩
        obtain ⟨v, listed, found⟩ := List.mem_filterMap.mp member
        obtain ⟨t, data, rfl⟩ := Option.map_eq_some_iff.mp found
        exact .value listed data
      | primitive kind => cases here
      | reference other location =>
        simp only [reachTurn] at here
        repeat' split at here
        all_goals cases here
    cases m with
    | zero => exact absurd (.here nests.1) shallow
    | succ lower => exact ⟨lower, rfl, fun part member deep =>
        shallow (.inside (nests.2 part member) deep)⟩
  behind := by
    intro base other next here
    cases base with
    | reference first location =>
      simp only [reachTurn] at here
      split at here
      · cases here
      · split at here
        · cases here
        · next d defined =>
          split at here
          · cases here
          · cases here
            obtain ⟨member, named⟩ := name_of_definition defined
            exact ⟨acyclic_iff.mp (grounded _ (.definition member)),
              named ▸ List.mem_map_of_mem member⟩
    | _ => cases here
  unique := by
    have behind : ∀ {base other next}, s.reachTurn name base = .onward other next →
        (s.definition? other).map (·.type.base) = some next := by
      intro base other next here
      cases base with
      | reference first location =>
        simp only [reachTurn] at here
        split at here
        · cases here
        · split at here
          · cases here
          · next d defined =>
            split at here
            · cases here
            · cases here
              rw [defined]
              rfl
      | _ => cases here
    intro base base' other next next' here here'
    exact Option.some.inj ((behind here).symm.trans (behind here'))

theorem is_recursive_iff (grounded : s.Grounded) {d : Definition} (member : d ∈ s.definitions) :
    s.isRecursive d = true ↔ s.Recurs d.name d.type.base := by
  rw [recurs_iff_finds, isRecursive, reaches_name_eq]
  apply explore_iff (reach_bounded grounded d.name) (m := s.nestingBound)
  · exact acyclic_iff.mp (grounded _ (.definition member))
  · have product : s.recursionBound =
        s.definitions.length * (s.nestingBound + 2) + 2 * (s.nestingBound + 2) := by
      rw [recursionBound, Nat.add_mul]
    rw [List.length_map]
    omega

end Search

section Ways

theorem Circles.recurs {t : TypeUse} (circles : s.Circles name t) :
    s.Recurs name t.base ∧ t.isNested = false := by
  induction circles with
  | here => exact ⟨.here, by simp [TypeUse.isNested]⟩
  | behind defined _ ih => exact ⟨.behind defined ih.2 ih.1, by simp [TypeUse.isNested]⟩

theorem Wraps.recurs {t : TypeUse} (wraps : s.Wraps name t) :
    s.Recurs name t.base ∧ t.isNested = false := by
  induction wraps with
  | here nested inside => exact ⟨inside, by simp [TypeUse.isNested]⟩
  | behind defined _ ih => exact ⟨.behind defined ih.2 ih.1, by simp [TypeUse.isNested]⟩

/-- What is no struct or enum itself meets a name through references alone, or inside of one that is
written in suffixes. -/
theorem Recurs.ways {base : TypeBase} (recurs : s.Recurs name base) :
    ∀ {suffixes}, TypeUse.isNested ⟨suffixes, base⟩ = false →
      s.Circles name ⟨suffixes, base⟩ ∨ s.Wraps name ⟨suffixes, base⟩ := by
  have wrapped : ∀ {base suffixes}, base.IsNested → s.Recurs name base →
      TypeUse.isNested ⟨suffixes, base⟩ = false → s.Wraps name ⟨suffixes, base⟩ := by
    intro base suffixes nested inside plain
    cases suffixes with
    | nil => cases base <;> simp_all [TypeUse.isNested, TypeBase.IsNested]
    | cons suffix suffixes => exact .here nested inside
  induction recurs with
  | here => exact fun _ => .inl .here
  | behind defined plain _ ih => exact fun _ => (ih plain).imp (.behind defined) (.behind defined)
  | field held rest _ => exact fun plain => .inr (wrapped trivial (.field held rest) plain)
  | value member data rest _ => exact fun plain => .inr (wrapped trivial (.value member data rest) plain)

theorem recurs_plain_iff {t : TypeUse} :
    s.Recurs name t.base ∧ t.isNested = false ↔ s.Circles name t ∨ s.Wraps name t := by
  constructor
  · exact fun both => both.1.ways both.2
  · exact fun either => either.elim Circles.recurs Wraps.recurs

theorem not_wraps {t : TypeUse} (own : t.base.IsNested → t.suffixes = [])
    (bare : ∀ d ∈ s.definitions, d.type.base.IsNested → d.type.suffixes = []) :
    ¬ s.Wraps name t := by
  intro wraps
  induction wraps with
  | here nested => cases own nested
  | behind defined _ ih => exact ih (bare _ (name_of_definition defined).1)

end Ways

theorem forM_error_iff {α ε : Type} {f : α → Except ε PUnit} {items : List α} {e : ε} :
    items.forM f = .error e ↔ ∃ earlier a later, items = earlier ++ a :: later ∧
      (∀ b ∈ earlier, f b = .ok ⟨⟩) ∧ f a = .error e := by
  induction items with
  | nil => simp [List.forM, pure, Except.pure]
  | cons a rest ih =>
    simp only [List.forM]
    cases first : f a with
    | error other =>
      constructor
      · intro same
        exact ⟨[], a, rest, rfl, by simp, first.trans same⟩
      · intro found
        obtain ⟨earlier, b, later, split, passed, failed⟩ := found
        cases earlier with
        | nil =>
          cases split
          exact first.symm.trans failed
        | cons c earlier =>
          cases split
          cases first.symm.trans (passed a (List.mem_cons_self ..))
    | ok _ =>
      simp only [bind, Except.bind, ih]
      constructor
      · intro found
        obtain ⟨earlier, b, later, rfl, passed, failed⟩ := found
        exact ⟨a :: earlier, b, later, rfl, List.forall_mem_cons.mpr ⟨first, passed⟩, failed⟩
      · intro found
        obtain ⟨earlier, b, later, split, passed, failed⟩ := found
        cases earlier with
        | nil =>
          cases split
          cases first.symm.trans failed
        | cons c earlier =>
          cases split
          exact ⟨earlier, b, later, rfl, (List.forall_mem_cons.mp passed).2, failed⟩

theorem judge_recursive_alias {d : Definition} {other : String} {location : Location} :
    s.judge d = refuse (.recursiveAlias other location) ↔
      (s.isRecursive d = true ∧ d.type.isNested = false) ∧ d.name = other ∧ d.location = location := by
  unfold judge refuse
  cases s.isRecursive d <;> cases d.type.isNested <;> cases s.isEndless d <;> simp

/-- The pass refuses an alias that is recursive for the first definition that it refuses, if that is no
struct or enum and meets its own name: through references, arrays and optionals alone, or inside of a
struct or an enum that is written in suffixes. Where none is, there is only the first way. -/
theorem recursive_aliases (reached : s.checkEmptiness = .ok ()) :
    (∀ other location, s.checkRecursions = refuse (.recursiveAlias other location) ↔
      ∃ earlier d later, s.definitions = earlier ++ d :: later ∧
        (∀ e ∈ earlier, s.judge e = .ok ()) ∧ d.name = other ∧ d.location = location ∧
        (s.Circles d.name d.type ∨ s.Wraps d.name d.type)) ∧
    (∀ d ∈ s.definitions, s.judge d = refuse (.recursiveAlias d.name d.location) ↔
      s.Circles d.name d.type ∨ s.Wraps d.name d.type) ∧
    ((∀ d ∈ s.definitions, d.type.base.IsNested → d.type.suffixes = []) →
      ∀ d ∈ s.definitions, s.judge d = refuse (.recursiveAlias d.name d.location) ↔
        s.Circles d.name d.type) := by
  have grounded := grounded_of_check_emptiness reached
  have judged : ∀ d ∈ s.definitions, ∀ other location,
      s.judge d = refuse (.recursiveAlias other location) ↔
        (s.Circles d.name d.type ∨ s.Wraps d.name d.type) ∧ d.name = other ∧ d.location = location := by
    intro d member other location
    rw [judge_recursive_alias, is_recursive_iff grounded member, recurs_plain_iff]
  refine ⟨fun other location => ?_, fun d member => ?_, fun bare d member => ?_⟩
  · rw [check_recursions_eq, refuse, forM_error_iff]
    constructor
    · intro found
      obtain ⟨earlier, d, later, split, passed, failed⟩ := found
      have member : d ∈ s.definitions := by simp [split]
      obtain ⟨ways, named, located⟩ := (judged d member other location).mp failed
      exact ⟨earlier, d, later, split, passed, named, located, ways⟩
    · intro found
      obtain ⟨earlier, d, later, split, passed, named, located, ways⟩ := found
      have member : d ∈ s.definitions := by simp [split]
      exact ⟨earlier, d, later, split, passed, (judged d member other location).mpr ⟨ways, named, located⟩⟩
  · rw [judged d member]
    simp
  · have none : ¬ s.Wraps d.name d.type := not_wraps (bare d member) bare
    rw [judged d member]
    simp [none]

/-- The schema in which a source without imports is to be searched for recursions. -/
def reached? (source : String) : Option Schema := do
  let tree ← (SchemaTree.parse ⟨[], []⟩ "-" source).toOption
  let s ← (ofTree tree).expanded.toOption
  if s.checkEmptiness.isOk then some s else none

theorem reached_of_found {source : String} (found : reached? source = some s) :
    s.checkEmptiness = .ok () := by
  unfold reached? at found
  cases parsed : (SchemaTree.parse ⟨[], []⟩ "-" source).toOption with
  | none => simp [parsed] at found
  | some tree =>
    cases expanded : (ofTree tree).expanded.toOption with
    | none => simp [parsed, expanded] at found
    | some g =>
      obtain ⟨sound, rfl⟩ : g.checkEmptiness.isOk = true ∧ g = s := by
        simpa [parsed, expanded, Option.bind_eq_some_iff] using found
      exact (exists_of_is_ok sound).choose_spec

def groves : String :=
  "type Tree \x7b below: Forest, above: \x7b tree: Tree \x7d? \x7d\n" ++
    "type Forest Tree[]\ntype Left Right[]\ntype Right Left?"

theorem groves_judged : ∃ s, reached? groves = some s ∧
    (s.definitions.filter fun d => decide (s.judge d = refuse (.recursiveAlias d.name d.location))).map
      (·.name) = ["Left", "Right"] ∧
    ∀ d ∈ s.definitions, s.judge d = refuse (.recursiveAlias d.name d.location) ↔
      s.Circles d.name d.type := by
  have checked : (reached? groves).map (fun s =>
      (decide (∀ d ∈ s.definitions, d.type.base.IsNested → d.type.suffixes = []),
        (s.definitions.filter fun d => decide (s.judge d = refuse (.recursiveAlias d.name d.location))).map
          (·.name))) = some (true, ["Left", "Right"]) := by
    simp only [reached?, SchemaTree.parse_by_chars]
    decide +kernel
  cases found : reached? groves with
  | none => rw [found] at checked; cases checked
  | some s =>
    rw [found] at checked
    have both := Prod.mk.inj (Option.some.inj checked)
    exact ⟨s, rfl, both.2, (recursive_aliases (reached_of_found found)).2.2 (of_decide_eq_true both.1)⟩

/-- A list of structs that refer to the list is refused, though only a field leads back to it. -/
theorem listed_struct_refused :
    ((SchemaTree.parse ⟨[], []⟩ "-" "type X \x7b a: X? \x7d[]").toOption.map fun tree =>
      (ofTree tree).analyse) =
        some (.error (.semantic (.recursiveAlias "X" ⟨"-", 1, 1⟩))) ∧
    ∃ s d, reached? "type X \x7b a: X? \x7d[]" = some s ∧ s.definitions = [d] ∧
      s.judge d = refuse (.recursiveAlias "X" ⟨"-", 1, 1⟩) ∧ ¬ s.Circles d.name d.type := by
  refine ⟨by decide +kernel, ?_⟩
  have checked : (reached? "type X \x7b a: X? \x7d[]").map (fun s => s.definitions.map fun d =>
      (d.type, s.judge d)) =
        some [(⟨[.array], .struct 0⟩, refuse (.recursiveAlias "X" ⟨"-", 1, 1⟩))] := by
    simp only [reached?, SchemaTree.parse_by_chars]
    decide +kernel
  cases found : reached? "type X \x7b a: X? \x7d[]" with
  | none => rw [found] at checked; cases checked
  | some s =>
    rw [found] at checked
    obtain ⟨d, only, judged⟩ := List.map_eq_singleton_iff.mp (Option.some.inj checked)
    obtain ⟨type, refused⟩ := Prod.mk.inj judged
    refine ⟨s, d, rfl, only, refused, ?_⟩
    intro circles
    rw [type] at circles
    cases circles

end ApiSchema.Schema
