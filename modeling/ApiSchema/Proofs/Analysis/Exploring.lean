import ApiSchema.Analysis.Recursion
import Mathlib.Logic.Relation
import Mathlib.Tactic.Common

/-! Depth-first searches that go through every alias once. Where nothing was found, whatever has been
gone through is covered; so a search that may go deep enough finds all that can be reached. -/

namespace ApiSchema

/-- What a search does at a place: it ends, it goes on behind an alias, or it looks into parts. -/
inductive Turn (ν : Type) where
  | stop (found : Bool)
  | onward (name : String) (next : ν)
  | branch (parts : List ν)

namespace AliasSearch

def explore {ν : Type} (turn : ν → Turn ν) : (fuel : Nat) → ν → AliasSearch Bool
  | 0, _ => return false
  | fuel + 1, n =>
    match turn n with
    | .stop found => return found
    | .onward name next => do
      if (← get).contains name then return false
      modify (name :: ·)
      explore turn fuel next
    | .branch parts => anyOf (explore turn fuel) parts

variable {ν : Type} {turn : ν → Turn ν}

inductive Steps (turn : ν → Turn ν) : ν → ν → Prop where
  | onward {n name next} (here : turn n = .onward name next) : Steps turn n next
  | branch {n parts part} (here : turn n = .branch parts) (member : part ∈ parts) :
    Steps turn n part

/-- A place where the search succeeds can be reached. -/
def Finds (turn : ν → Turn ν) (n : ν) : Prop :=
  ∃ goal, Relation.ReflTransGen (Steps turn) n goal ∧ turn goal = .stop true

theorem Finds.step {n next : ν} (steps : Steps turn n next) (finds : Finds turn next) :
    Finds turn n := by
  obtain ⟨goal, way, found⟩ := finds
  exact ⟨goal, .head steps way, found⟩

theorem Finds.stop {n : ν} (here : turn n = .stop true) : Finds turn n := ⟨n, .refl, here⟩

theorem Finds.cases {n : ν} (finds : Finds turn n) :
    turn n = .stop true ∨ ∃ next, Steps turn n next ∧ Finds turn next := by
  obtain ⟨goal, way, found⟩ := finds
  rcases Relation.ReflTransGen.cases_head way with same | ⟨next, steps, rest⟩
  · exact .inl (same ▸ found)
  · exact .inr ⟨next, steps, goal, rest, found⟩

theorem once_run (name : String) (next : AliasSearch Bool) (seen : List String) :
    (do
      if (← get).contains name then return false
      modify (name :: ·)
      next : AliasSearch Bool).run seen =
        if name ∈ seen then (false, seen) else next.run (name :: seen) := by
  change (if seen.contains name = true then pure false else do
    modify (name :: ·)
    next : AliasSearch Bool).run seen = _
  by_cases visited : name ∈ seen
  · simp only [List.contains_eq_mem, visited, decide_true, if_true]
    rfl
  · simp only [List.contains_eq_mem, visited, decide_false, if_false, Bool.false_eq_true]
    rfl

section Items

variable {α β : Type} {test : α → AliasSearch Bool} {seen : List String}

theorem any_of_cons (a : α) (rest : List α) :
    (anyOf test (a :: rest)).run seen =
      if ((test a).run seen).1 then (true, ((test a).run seen).2)
      else (anyOf test rest).run ((test a).run seen).2 := by
  change (if ((test a).run seen).1 = true then pure true else anyOf test rest : AliasSearch Bool).run
    ((test a).run seen).2 = _
  split <;> rfl

theorem all_of_cons (a : α) (rest : List α) :
    (allOf test (a :: rest)).run seen =
      if ((test a).run seen).1 then (allOf test rest).run ((test a).run seen).2
      else (false, ((test a).run seen).2) := by
  change (if ((test a).run seen).1 = true then allOf test rest else pure false : AliasSearch Bool).run
    ((test a).run seen).2 = _
  split <;> rfl

theorem any_of_map (f : β → α) (items : List β) :
    anyOf test (items.map f) = anyOf (fun b => test (f b)) items := by
  induction items with
  | nil => rfl
  | cons b rest ih => simp only [List.map_cons, anyOf, ih]

theorem exists_of_any_of {items : List α} (found : ((anyOf test items).run seen).1 = true) :
    ∃ a ∈ items, ∃ before, ((test a).run before).1 = true := by
  induction items generalizing seen with
  | nil => cases found
  | cons a rest ih =>
    rw [any_of_cons] at found
    split at found
    · next here => exact ⟨a, List.mem_cons_self .., seen, here⟩
    · obtain ⟨b, member, before, there⟩ := ih found
      exact ⟨b, List.mem_cons_of_mem _ member, before, there⟩

theorem forall_of_all_of {items : List α} (passed : ((allOf test items).run seen).1 = true) :
    ∀ a ∈ items, ∃ before, ((test a).run before).1 = true := by
  induction items generalizing seen with
  | nil => simp
  | cons a rest ih =>
    rw [all_of_cons] at passed
    split at passed
    · next here => simpa using ⟨⟨seen, here⟩, ih passed⟩
    · cases passed

end Items

/-- Where a search starts with good names, it tells whether something holds; and unless it succeeds,
or `always`, the names stay good. -/
structure Answers (good : List String → Prop) (search : AliasSearch Bool) (holds always : Prop) :
    Prop where
  answer : ∀ {seen}, good seen → ((search.run seen).1 = true ↔ holds)
  keeps : ∀ {seen}, good seen → (search.run seen).1 = false ∨ always → good (search.run seen).2

namespace Answers

variable {α : Type} {good : List String → Prop} {test : α → AliasSearch Bool} {holds : α → Prop}
  {always : Prop} {items : List α}

theorem mono {search : AliasSearch Bool} {found other : Prop} (answers : Answers good search found always)
    (stronger : other → always) : Answers good search found other :=
  ⟨answers.answer, fun start kept => answers.keeps start (kept.imp_right stronger)⟩

theorem any_of (each : ∀ a ∈ items, Answers good (test a) (holds a) always) :
    Answers good (anyOf test items) (∃ a ∈ items, holds a) always := by
  induction items with
  | nil => exact ⟨fun _ => by simp [anyOf], fun start _ => start⟩
  | cons a rest ih =>
    have first := each a (List.mem_cons_self ..)
    have others := ih fun b member => each b (List.mem_cons_of_mem _ member)
    constructor
    · intro seen start
      have here := first.answer start
      rw [any_of_cons]
      split
      · next found => simp [here.mp found]
      · next missed =>
        have later := first.keeps start (.inl (by simpa using missed))
        simp [others.answer later, mt here.mpr missed]
    · intro seen start kept
      rw [any_of_cons] at kept ⊢
      split at kept
      · next found => simpa [found] using first.keeps start (kept.imp_left (by simp))
      · next missed =>
        have later := first.keeps start (.inl (by simpa using missed))
        simpa [missed] using others.keeps later kept

theorem all_of (each : ∀ a ∈ items, Answers good (test a) (holds a) True) :
    Answers good (allOf test items) (∀ a ∈ items, holds a) True := by
  induction items with
  | nil => exact ⟨fun _ => ⟨fun _ => List.forall_mem_nil _, fun _ => rfl⟩, fun start _ => start⟩
  | cons a rest ih =>
    have first := each a (List.mem_cons_self ..)
    have others := ih fun b member => each b (List.mem_cons_of_mem _ member)
    constructor
    · intro seen start
      have here := first.answer start
      have later := first.keeps start (.inr trivial)
      rw [all_of_cons, List.forall_mem_cons]
      split
      · next passed => simp [others.answer later, here.mp passed]
      · next failed => simp [mt here.mpr failed]
    · intro seen start _
      have later := first.keeps start (.inr trivial)
      rw [all_of_cons]
      split
      · exact others.keeps later (.inr trivial)
      · exact later

theorem all_of_singleton {a : α} (only : Answers good (test a) (holds a) always) :
    Answers good (allOf test [a]) (∀ b ∈ [a], holds b) always := by
  have same : ∀ seen, (allOf test [a]).run seen = (test a).run seen := by
    intro seen
    rw [all_of_cons]
    split
    · next passed => exact Prod.ext passed.symm rfl
    · next failed => exact Prod.ext (by simpa using failed) rfl
  constructor
  · intro seen start
    simpa [same] using only.answer start
  · intro seen start kept
    rw [same] at kept ⊢
    exact only.keeps start kept

end Answers

/-- Two searches that start with related names give the same answer, and the names stay related. -/
def Tracks (related : List String → List String → Prop) (search search' : AliasSearch Bool) : Prop :=
  ∀ seen seen', related seen seen' → (search.run seen).1 = (search'.run seen').1 ∧
    related (search.run seen).2 (search'.run seen').2

namespace Tracks

variable {α : Type} {related : List String → List String → Prop} {test test' : α → AliasSearch Bool}
  {items : List α}

theorem any_of (each : ∀ a ∈ items, Tracks related (test a) (test' a)) :
    Tracks related (anyOf test items) (anyOf test' items) := by
  induction items with
  | nil => exact fun _ _ both => ⟨rfl, both⟩
  | cons a rest ih =>
    intro seen seen' both
    obtain ⟨same, later⟩ := each a (List.mem_cons_self ..) seen seen' both
    rw [any_of_cons, any_of_cons, ← same]
    split
    · exact ⟨rfl, later⟩
    · exact ih (fun b member => each b (List.mem_cons_of_mem _ member)) _ _ later

theorem all_of (each : ∀ a ∈ items, Tracks related (test a) (test' a)) :
    Tracks related (allOf test items) (allOf test' items) := by
  induction items with
  | nil => exact fun _ _ both => ⟨rfl, both⟩
  | cons a rest ih =>
    intro seen seen' both
    obtain ⟨same, later⟩ := each a (List.mem_cons_self ..) seen seen' both
    rw [all_of_cons, all_of_cons, ← same]
    split
    · exact ih (fun b member => each b (List.mem_cons_of_mem _ member)) _ _ later
    · exact ⟨rfl, later⟩

end Tracks

section Run

variable {n : ν} {seen : List String} {fuel : Nat}

theorem explore_stop {found : Bool} (here : turn n = .stop found) :
    (explore turn (fuel + 1) n).run seen = (found, seen) := by
  simp only [explore, here]
  rfl

theorem explore_onward {name : String} {next : ν} (here : turn n = .onward name next) :
    (explore turn (fuel + 1) n).run seen =
      if name ∈ seen then (false, seen) else (explore turn fuel next).run (name :: seen) := by
  simp only [explore, here]
  exact once_run name _ seen

theorem explore_branch {parts : List ν} (here : turn n = .branch parts) :
    explore turn (fuel + 1) n = anyOf (explore turn fuel) parts := by
  simp only [explore, here]

end Run

theorem finds_of_explore {fuel : Nat} :
    ∀ {n seen}, ((explore turn fuel n).run seen).1 = true → Finds turn n := by
  induction fuel with
  | zero => intro n seen found; cases found
  | succ fuel ih =>
    intro n seen found
    cases here : turn n with
    | stop result =>
      rw [explore_stop here] at found
      exact .stop (here.trans (congrArg Turn.stop found))
    | onward name next =>
      rw [explore_onward here] at found
      split at found
      · cases found
      · exact (ih found).step (.onward here)
    | branch parts =>
      rw [explore_branch here] at found
      obtain ⟨part, member, before, there⟩ := exists_of_any_of found
      exact (ih there).step (.branch here member)

/-- There is nothing to find at a place, except behind aliases that have been seen. -/
inductive Covered (turn : ν → Turn ν) (seen : List String) : ν → Prop where
  | stop {n} (here : turn n = .stop false) : Covered turn seen n
  | onward {n name next} (here : turn n = .onward name next) (visited : name ∈ seen) :
    Covered turn seen n
  | branch {n parts} (here : turn n = .branch parts)
    (each : ∀ part ∈ parts, Covered turn seen part) : Covered turn seen n

/-- A search has seen more aliases, and what is behind each of the new ones is covered. -/
structure Advances (turn : ν → Turn ν) (seen later : List String) : Prop where
  wider : seen ⊆ later
  behind : ∀ n name next, turn n = .onward name next → name ∈ later → name ∉ seen →
    Covered turn later next

variable {seen later last : List String}

theorem Covered.widen {n : ν} (covered : Covered turn seen n) (wider : seen ⊆ later) :
    Covered turn later n := by
  induction covered with
  | stop here => exact .stop here
  | onward here visited => exact .onward here (wider visited)
  | branch here _ ih => exact .branch here ih

namespace Advances

theorem refl (turn : ν → Turn ν) (seen : List String) : Advances turn seen seen :=
  ⟨fun _ => id, fun _ _ _ _ member fresh => absurd member fresh⟩

theorem trans (first : Advances turn seen later) (second : Advances turn later last) :
    Advances turn seen last where
  wider _ member := second.wider (first.wider member)
  behind n name next here member fresh := by
    by_cases early : name ∈ later
    · exact (first.behind n name next here early fresh).widen second.wider
    · exact second.behind n name next here member early

end Advances

/-- How far searches go: `level m` is for places with fewer than `m` branches below each other, and
behind an alias of `names` there are never more than `height`. -/
structure Bounded (turn : ν → Turn ν) (level : Nat → ν → Prop) (names : List String)
    (height : Nat) : Prop where
  parts : ∀ {m n parts}, level m n → turn n = .branch parts →
    ∃ lower, m = lower + 1 ∧ ∀ part ∈ parts, level lower part
  behind : ∀ {n name next}, turn n = .onward name next → level height next ∧ name ∈ names
  unique : ∀ {n n' name next next'}, turn n = .onward name next → turn n' = .onward name next' →
    next = next'

def unseen (names seen : List String) : Nat := (names.filter fun name => !seen.contains name).length

theorem unseen_le {names : List String} (wider : seen ⊆ later) :
    unseen names later ≤ unseen names seen := by
  unfold unseen
  rw [← List.countP_eq_length_filter, ← List.countP_eq_length_filter]
  apply List.countP_mono_left
  intro name _ free
  simp only [Bool.not_eq_true', List.contains_eq_mem, decide_eq_false_iff_not] at free ⊢
  exact fun member => free (wider member)

theorem unseen_cons {names : List String} {name : String} (listed : name ∈ names)
    (fresh : name ∉ seen) : unseen names (name :: seen) < unseen names seen := by
  have fewer : names.filter (fun other => !(name :: seen).contains other) =
      (names.filter fun other => !seen.contains other).filter (· != name) := by
    rw [List.filter_filter]
    congr 1
    funext other
    by_cases same : other = name <;> simp [same]
  rw [unseen, fewer]
  apply List.length_filter_lt_length_iff_exists.mpr
  exact ⟨name, by simp [listed, fresh], by simp⟩

theorem covered_of_any_of {test : ν → AliasSearch Bool} {parts : List ν}
    (each : ∀ part ∈ parts, ∀ between, seen ⊆ between → ((test part).run between).1 = false →
      Advances turn between ((test part).run between).2 ∧
        Covered turn ((test part).run between).2 part)
    (missed : ((anyOf test parts).run seen).1 = false) :
    Advances turn seen ((anyOf test parts).run seen).2 ∧
      ∀ part ∈ parts, Covered turn ((anyOf test parts).run seen).2 part := by
  induction parts generalizing seen with
  | nil => exact ⟨.refl turn seen, by simp⟩
  | cons part rest ih =>
    rw [any_of_cons] at missed ⊢
    split at missed
    · cases missed
    · next here =>
      rw [if_neg here]
      have first := each part (List.mem_cons_self ..) seen (fun _ => id) (by simpa using here)
      have others := ih (fun other member between wider => each other (List.mem_cons_of_mem _ member)
        between fun _ early => wider (first.1.wider early)) missed
      refine ⟨first.1.trans others.1, List.forall_mem_cons.mpr ⟨?_, others.2⟩⟩
      exact first.2.widen others.1.wider

section Depth

variable {level : Nat → ν → Prop} {names : List String} {height : Nat}

/-- A search that finds nothing covers the place where it began. -/
theorem covered_of_explore (bounded : Bounded turn level names height) {fuel : Nat} :
    ∀ {m n seen}, level m n → unseen names seen * (height + 2) + m + 1 ≤ fuel →
      ((explore turn fuel n).run seen).1 = false →
        Advances turn seen ((explore turn fuel n).run seen).2 ∧
          Covered turn ((explore turn fuel n).run seen).2 n := by
  induction fuel with
  | zero => intro m n seen _ enough; omega
  | succ fuel ih =>
    intro m n seen shallow enough missed
    cases here : turn n with
    | stop result =>
      rw [explore_stop here] at missed ⊢
      exact ⟨.refl turn seen, .stop (here.trans (congrArg Turn.stop missed))⟩
    | onward name next =>
      rw [explore_onward here] at missed ⊢
      by_cases visited : name ∈ seen
      · rw [if_pos visited]
        exact ⟨.refl turn seen, .onward here visited⟩
      · rw [if_neg visited] at missed ⊢
        have fewer := unseen_cons (bounded.behind here).2 visited
        have product : (unseen names (name :: seen) + 1) * (height + 2) ≤
            unseen names seen * (height + 2) := Nat.mul_le_mul_right _ fewer
        rw [Nat.add_mul, Nat.one_mul] at product
        obtain ⟨advances, covered⟩ := ih (bounded.behind here).1 (by omega) missed
        have own : name ∈ ((explore turn fuel next).run (name :: seen)).2 :=
          advances.wider (List.mem_cons_self ..)
        refine ⟨⟨fun _ member => advances.wider (List.mem_cons_of_mem _ member), ?_⟩,
          .onward here own⟩
        intro n' name' next' here' member fresh
        by_cases same : name' = name
        · subst same
          rw [bounded.unique here' here]
          exact covered
        · exact advances.behind n' name' next' here' member (by simp [same, fresh])
    | branch parts =>
      rw [explore_branch here] at missed ⊢
      obtain ⟨lower, rfl, shallower⟩ := bounded.parts shallow here
      have result := covered_of_any_of (fun part member between wider missed =>
        ih (shallower part member) (by
          have fewer : unseen names between * (height + 2) ≤ unseen names seen * (height + 2) :=
            Nat.mul_le_mul_right _ (unseen_le wider)
          omega) missed) missed
      exact ⟨result.1, .branch here result.2⟩

theorem covered_of_steps {n goal : ν} (advances : Advances turn [] later)
    (covered : Covered turn later n) (way : Relation.ReflTransGen (Steps turn) n goal) :
    Covered turn later goal := by
  induction way with
  | refl => exact covered
  | tail _ steps ih =>
    cases steps with
    | onward here =>
      cases ih with
      | stop other => rw [here] at other; cases other
      | branch other => rw [here] at other; cases other
      | onward other visited =>
        rw [here] at other
        cases other
        exact advances.behind _ _ _ here visited (by simp)
    | branch here member =>
      cases ih with
      | stop other => rw [here] at other; cases other
      | onward other => rw [here] at other; cases other
      | branch other each =>
        rw [here] at other
        cases other
        exact each _ member

/-- A search that may go deep enough finds exactly what can be reached. -/
theorem explore_iff (bounded : Bounded turn level names height) {m fuel : Nat} {n : ν}
    (shallow : level m n) (enough : names.length * (height + 2) + m + 1 ≤ fuel) :
    ((explore turn fuel n).run []).1 = true ↔ Finds turn n := by
  constructor
  · exact finds_of_explore
  · intro finds
    obtain ⟨goal, way, found⟩ := finds
    by_contra fails
    have missed : ((explore turn fuel n).run []).1 = false := Bool.not_eq_true _ ▸ fails
    have all : unseen names [] = names.length := by simp [unseen]
    obtain ⟨advances, covered⟩ := covered_of_explore bounded shallow (all.symm ▸ enough) missed
    cases covered_of_steps advances covered way with
    | stop here => rw [found] at here; cases here
    | onward here => rw [found] at here; cases here
    | branch here => rw [found] at here; cases here

end Depth

end AliasSearch

end ApiSchema
