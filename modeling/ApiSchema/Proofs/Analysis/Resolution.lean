import ApiSchema.Proofs.Analysis.Aliases

/-! References are followed to the end of their chain. As many steps as there are references are
enough: a chain that is longer never ends, and a search that remembers the references it has met
comes back to one of them. -/

namespace ApiSchema

section Outcomes

variable {ρ τ : Type} {nameOf : ρ → String} {start : ρ} {e : ChainEnd ρ τ}

theorem ChainEnd.resolve_ok {t : τ} : e.resolve nameOf start = .ok t ↔ e = .target t := by
  cases e <;> simp [ChainEnd.resolve]

theorem ChainEnd.resolve_unbound {name : String} :
    e.resolve nameOf start = .error (.unbound name) ↔ ∃ last, e = .unbound last ∧ nameOf last = name := by
  cases e <;> simp [ChainEnd.resolve]

theorem ChainEnd.resolve_cycle {name : String} :
    e.resolve nameOf start = .error (.cycle name) ↔ nameOf start = name ∧ e = .endless := by
  cases e <;> simp [ChainEnd.resolve]

end Outcomes

namespace Link

variable {ρ τ : Type}

/-- So many references lead from one to another. -/
inductive Chain (link : ρ → Link ρ τ) : Nat → ρ → ρ → Prop where
  | here {r} : Chain link 0 r r
  | onward {n r next last} (step : link r = .onward next) (rest : Chain link n next last) :
    Chain link (n + 1) r last

/-- A chain does not go on behind its last reference. -/
inductive Halts (link : ρ → Link ρ τ) (last : ρ) : ChainEnd ρ τ → Prop where
  | unbound (loose : link last = .unbound) : Halts link last (.unbound last)
  | target {t} (bound : link last = .target t) : Halts link last (.target t)

/-- How a search ends that follows references and remembers those it has met: it gives up when it
meets one of them again. -/
inductive Search (link : ρ → Link ρ τ) : (met : List ρ) → ρ → ChainEnd ρ τ → Prop where
  | again {met r} (known : r ∈ met) : Search link met r .endless
  | halt {met r e} (new : r ∉ met) (halts : Halts link r e) : Search link met r e
  | onward {met r next e} (new : r ∉ met) (step : link r = .onward next)
    (rest : Search link (r :: met) next e) : Search link met r e

/-- What resolving a reference comes to: the target of its chain, the name of the reference at which the
chain breaks off, or the name of the reference itself if the chain never ends. -/
structure Resolves (link : ρ → Link ρ τ) (nameOf : ρ → String) (r : ρ)
    (outcome : Except ResolveError τ) : Prop where
  target : ∀ t, outcome = .ok t ↔ ∃ n last, Chain link n r last ∧ link last = .target t
  unbound : ∀ name, outcome = .error (.unbound name) ↔
    ∃ n last, Chain link n r last ∧ link last = .unbound ∧ nameOf last = name
  cycle : ∀ name, outcome = .error (.cycle name) ↔ nameOf r = name ∧ ∀ n, ∃ last, Chain link n r last

variable {link : ρ → Link ρ τ} {refs met : List ρ} {r next last other : ρ} {n m fuel : Nat} {e e' : ChainEnd ρ τ}

section Chains

theorem Halts.not_onward (halts : Halts link r e) : link r ≠ .onward next := by
  cases halts with
  | unbound loose => rw [loose]; nofun
  | target bound => rw [bound]; nofun

theorem halts_target {t : τ} : Halts link r (.target t) ↔ link r = .target t :=
  ⟨fun halts => by cases halts with | target bound => exact bound, .target⟩

theorem Halts.unique (halts : Halts link r e) (halts' : Halts link r e') : e = e' := by
  cases halts with
  | unbound loose =>
    cases halts' with
    | unbound => rfl
    | target bound => cases loose.symm.trans bound
  | target bound =>
    cases halts' with
    | unbound loose => cases bound.symm.trans loose
    | target bound' =>
      cases bound.symm.trans bound'
      rfl

theorem Chain.le_of_halts (chain : Chain link n r last) (halts : Halts link last e)
    (further : Chain link m r other) : m ≤ n := by
  induction chain generalizing m with
  | here =>
    cases further with
    | here => exact Nat.le_refl 0
    | onward step _ => exact absurd step halts.not_onward
  | onward step _ ih =>
    cases further with
    | here => exact Nat.zero_le _
    | onward step' rest =>
      cases step.symm.trans step'
      exact Nat.succ_le_succ (ih halts rest)

/-- The references before the last one of a chain that halts are different ones: each is at a distance
of its own. -/
theorem Chain.passed (chain : Chain link n r last) (halts : Halts link last e) :
    ∃ met : List ρ, met.length = n ∧ met.Nodup ∧
      ∀ x ∈ met, (∃ next, link x = .onward next) ∧ ∃ k ≤ n, Chain link k x last := by
  induction chain with
  | here => exact ⟨[], rfl, .nil, nofun⟩
  | @onward n r next last step rest ih =>
    obtain ⟨met, length, distinct, near⟩ := ih halts
    have whole : Chain link (n + 1) r last := .onward step rest
    refine ⟨r :: met, by rw [List.length_cons, length], List.nodup_cons.mpr ⟨fun member => ?_, distinct⟩, ?_⟩
    · obtain ⟨_, k, close, chain⟩ := near r member
      have := chain.le_of_halts halts whole
      omega
    · intro x member
      rcases List.mem_cons.mp member with rfl | later
      · exact ⟨⟨next, step⟩, n + 1, Nat.le_refl _, whole⟩
      · obtain ⟨goes, k, close, chain⟩ := near x later
        exact ⟨goes, k, Nat.le_succ_of_le close, chain⟩

theorem Chain.le_length (among : ∀ r next, link r = .onward next → r ∈ refs)
    (chain : Chain link n r last) (halts : Halts link last e) : n ≤ refs.length := by
  obtain ⟨met, rfl, distinct, near⟩ := chain.passed halts
  refine (List.subperm_of_subset distinct fun x member => ?_).length_le
  obtain ⟨⟨next, step⟩, _⟩ := near x member
  exact among x next step

end Chains

section Chase

theorem chase_of_halts (chain : Chain link n r last) (halts : Halts link last e) (enough : n < fuel) :
    chase link fuel r = e := by
  induction chain generalizing fuel with
  | here =>
    obtain ⟨fuel, rfl⟩ := Nat.exists_eq_add_one.mpr enough
    cases halts with
    | unbound loose => rw [chase, loose]
    | target bound => rw [chase, bound]
  | onward step _ ih =>
    obtain ⟨fuel, rfl⟩ := Nat.exists_eq_add_one.mpr (Nat.zero_lt_of_lt enough)
    rw [chase, step]
    exact ih halts (Nat.lt_of_succ_lt_succ enough)

theorem chase_cases (link : ρ → Link ρ τ) (fuel : Nat) (r : ρ) :
    (chase link fuel r = .endless ∧ ∃ last, Chain link fuel r last) ∨
      ∃ n < fuel, ∃ last, Chain link n r last ∧ Halts link last (chase link fuel r) := by
  induction fuel generalizing r with
  | zero => exact .inl ⟨rfl, r, .here⟩
  | succ fuel ih =>
    rw [chase]
    cases step : link r with
    | unbound => exact .inr ⟨0, Nat.succ_pos _, r, .here, .unbound step⟩
    | target t => exact .inr ⟨0, Nat.succ_pos _, r, .here, .target step⟩
    | onward next =>
      rcases ih next with ⟨endless, last, chain⟩ | ⟨n, less, last, chain, halts⟩
      · exact .inl ⟨endless, last, .onward step chain⟩
      · exact .inr ⟨n + 1, Nat.succ_lt_succ less, last, .onward step chain, halts⟩

variable (among : ∀ r next, link r = .onward next → r ∈ refs)

include among

theorem chase_halts_iff (halting : e ≠ .endless) :
    chase link (refs.length + 1) r = e ↔ ∃ n last, Chain link n r last ∧ Halts link last e := by
  constructor
  · rintro rfl
    rcases chase_cases link (refs.length + 1) r with ⟨endless, _⟩ | ⟨n, _, last, ends⟩
    · exact absurd endless halting
    · exact ⟨n, last, ends⟩
  · rintro ⟨n, last, chain, halts⟩
    exact chase_of_halts chain halts (Nat.lt_succ_of_le (chain.le_length among halts))

theorem chase_endless_iff :
    chase link (refs.length + 1) r = .endless ↔ ∀ n, ∃ last, Chain link n r last := by
  constructor
  · intro endless n
    rcases chase_cases link n r with ⟨_, goes⟩ | ⟨m, _, last, chain, halts⟩
    · exact goes
    · have found := chase_of_halts chain halts (Nat.lt_succ_of_le (chain.le_length among halts))
      rw [← found, endless] at halts
      cases halts
  · intro goes
    rcases chase_cases link (refs.length + 1) r with ⟨endless, _⟩ | ⟨n, less, last, chain, halts⟩
    · exact endless
    · obtain ⟨_, further⟩ := goes (refs.length + 1)
      have := chain.le_of_halts halts further
      omega

end Chase

section Searches

theorem Search.unique (search : Search link met r e) (search' : Search link met r e') : e = e' := by
  induction search with
  | again known =>
    cases search' with
    | again => rfl
    | halt new _ => exact absurd known new
    | onward new _ _ => exact absurd known new
  | halt new halts =>
    cases search' with
    | again known => exact absurd known new
    | halt _ halts' => exact halts.unique halts'
    | onward _ step _ => exact absurd step halts.not_onward
  | onward new step _ ih =>
    cases search' with
    | again known => exact absurd known new
    | halt _ halts => exact absurd step halts.not_onward
    | onward _ step' rest =>
      cases step.symm.trans step'
      exact ih rest

/-- A search comes to where the chain halts, because what it has met is further away from there. -/
theorem search_of_halts (chain : Chain link n r last) (halts : Halts link last e)
    (behind : ∀ x ∈ met, ∃ k > n, Chain link k x last) : Search link met r e := by
  have new : ∀ {n r} {met : List ρ}, Chain link n r last → (∀ x ∈ met, ∃ k > n, Chain link k x last) → r ∉ met := by
    intro n r met chain behind member
    obtain ⟨k, far, further⟩ := behind r member
    exact absurd (chain.le_of_halts halts further) (Nat.not_le_of_lt far)
  induction chain generalizing met with
  | here => exact .halt (new .here behind) halts
  | @onward n r next last step rest ih =>
    have whole : Chain link (n + 1) r last := .onward step rest
    refine .onward (new whole behind) step (ih halts (fun x member => ?_) new)
    rcases List.mem_cons.mp member with rfl | old
    · exact ⟨n + 1, Nat.lt_succ_self n, whole⟩
    · obtain ⟨k, far, chain⟩ := behind x old
      exact ⟨k, Nat.lt_of_succ_lt far, chain⟩

/-- On a chain that never ends a search meets a reference again, because there is no room for more. -/
theorem search_of_endless (among : ∀ r next, link r = .onward next → r ∈ refs)
    (goes : ∀ n, ∃ last, Chain link n r last) {room : Nat} (distinct : met.Nodup) (inside : met ⊆ refs)
    (enough : refs.length < room + met.length) : Search link met r .endless := by
  induction room generalizing r met with
  | zero =>
    have short := (List.subperm_of_subset distinct inside).length_le
    omega
  | succ room ih =>
    by_cases known : r ∈ met
    · exact .again known
    · obtain ⟨_, chain⟩ := goes 1
      cases chain with
      | @onward _ _ next _ step _ =>
        refine .onward known step (ih (fun n => ?_) (List.nodup_cons.mpr ⟨known, distinct⟩)
          (List.cons_subset.mpr ⟨among r next step, inside⟩) (by rw [List.length_cons]; omega))
        obtain ⟨last, longer⟩ := goes (n + 1)
        cases longer with
        | onward step' rest =>
          cases step.symm.trans step'
          exact ⟨last, rest⟩

theorem search_iff (among : ∀ r next, link r = .onward next → r ∈ refs) :
    Search link [] r e ↔ e = chase link (refs.length + 1) r := by
  have found : Search link [] r (chase link (refs.length + 1) r) := by
    rcases chase_cases link (refs.length + 1) r with ⟨endless, _⟩ | ⟨n, _, last, chain, halts⟩
    · rw [endless]
      exact search_of_endless among ((chase_endless_iff among).mp endless) .nil (List.nil_subset _)
        (Nat.lt_succ_self refs.length)
    · exact search_of_halts chain halts nofun
  exact ⟨fun search => search.unique found, fun same => same ▸ found⟩

end Searches

theorem resolves_of_chase (among : ∀ r next, link r = .onward next → r ∈ refs) (nameOf : ρ → String) (r : ρ) :
    Resolves link nameOf r ((chase link (refs.length + 1) r).resolve nameOf r) := by
  constructor
  · intro t
    have halting : (.target t : ChainEnd ρ τ) ≠ .endless := nofun
    rw [ChainEnd.resolve_ok, chase_halts_iff among halting]
    simp only [halts_target]
  · intro name
    have halting (last) : (.unbound last : ChainEnd ρ τ) ≠ .endless := nofun
    rw [ChainEnd.resolve_unbound]
    constructor
    · rintro ⟨last, found, named⟩
      obtain ⟨n, _, chain, halts⟩ := (chase_halts_iff among (halting last)).mp found
      cases halts with
      | unbound loose => exact ⟨n, last, chain, loose, named⟩
    · rintro ⟨n, last, chain, loose, named⟩
      exact ⟨last, (chase_halts_iff among (halting last)).mpr ⟨n, last, chain, .unbound loose⟩, named⟩
  · intro name
    rw [ChainEnd.resolve_cycle, chase_endless_iff among]

/-- References are resolved exactly. Among finitely many of them, a search that remembers what it has met
ends, and ends as the steps do that there are references for. It comes to the target of the chain or to
the name of its last reference, and gives the name it started from exactly if the chain never ends. The
names of a schema are such references. -/
theorem resolution_exact (link : ρ → Link ρ τ) (refs : List ρ)
    (among : ∀ r next, link r = .onward next → r ∈ refs) (nameOf : ρ → String) (r : ρ) :
    (∀ e, Search link [] r e ↔ e = chase link (refs.length + 1) r) ∧
      Resolves link nameOf r ((chase link (refs.length + 1) r).resolve nameOf r) ∧
      ∀ (s : Schema) (name : String), Resolves s.link id name (s.resolve name) := by
  refine ⟨fun _ => search_iff among, resolves_of_chase among nameOf r, fun s name => ?_⟩
  have defined : ∀ name next, s.link name = .onward next → name ∈ s.definitions.map (·.name) := by
    intro name next step
    obtain ⟨d, _, defined, _⟩ := Schema.link_onward step
    obtain ⟨member, named⟩ := Schema.name_of_definition defined
    exact named ▸ List.mem_map_of_mem member
  simpa only [Schema.resolve, List.length_map] using resolves_of_chase defined id name

/-- A tail that leads into a circle, a reference to itself, one that is unbound and one to a type. -/
def knot : Fin 6 → Link (Fin 6) String
  | 0 => .onward 1
  | 1 => .onward 2
  | 2 => .onward 1
  | 3 => .onward 3
  | 4 => .unbound
  | 5 => .target "int"

theorem knot_resolved :
    Resolves knot (fun r => "T" ++ r.val.repr) 0 (.error (.cycle "T0")) ∧
      Search knot [] 0 .endless ∧ Search knot [] 3 .endless ∧ Search knot [] 4 (.unbound 4) ∧
      Search knot [] 5 (.target "int") := by
  have exact := resolution_exact knot (List.finRange 6) (fun r _ _ => List.mem_finRange r)
    (fun r => "T" ++ r.val.repr)
  exact ⟨(exact 0).2.1, ((exact 0).1 _).mpr (by decide), ((exact 3).1 _).mpr (by decide),
    ((exact 4).1 _).mpr (by decide), ((exact 5).1 _).mpr (by decide)⟩

end Link

end ApiSchema
