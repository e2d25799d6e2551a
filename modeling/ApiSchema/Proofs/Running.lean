import ApiSchema.Analysis.Error
import Mathlib.Data.List.Forall2

/-! Runs of checks over lists, and of steps that carry a state and may fail. -/

namespace ApiSchema

def IsSemantic (e : AnalysisFailure) : Prop := ∃ fault, e = .semantic fault

section Lists

variable {ε α : Type}

theorem exists_of_is_ok {outcome : Except ε α} (accepted : outcome.isOk = true) :
    ∃ a, outcome = .ok a := by
  cases outcome with
  | error e => cases accepted
  | ok a => exact ⟨a, rfl⟩

theorem ok_of_to_option {outcome : Except ε α} {a : α}
    (present : outcome.toOption = some a) : outcome = .ok a := by
  cases outcome with
  | error e => cases present
  | ok b =>
    cases present
    rfl

theorem forM_ok_iff {f : α → Except ε PUnit} {items : List α} :
    items.forM f = .ok ⟨⟩ ↔ ∀ a ∈ items, f a = .ok ⟨⟩ := by
  induction items with
  | nil => simp [List.forM, pure, Except.pure]
  | cons a rest ih =>
    simp only [List.forM, List.mem_cons, forall_eq_or_imp, ← ih]
    cases f a <;> simp [bind, Except.bind]

theorem forM_error {f : α → Except ε PUnit} {items : List α} {e : ε}
    (failed : items.forM f = .error e) : ∃ a ∈ items, f a = .error e := by
  induction items with
  | nil => cases failed
  | cons a rest ih =>
    simp only [List.forM] at failed
    cases first : f a with
    | error other =>
      rw [first] at failed
      exact ⟨a, by simp, by rw [first]; exact failed⟩
    | ok _ =>
      rw [first] at failed
      obtain ⟨b, member, equal⟩ := ih failed
      exact ⟨b, List.mem_cons_of_mem _ member, equal⟩

variable {β : Type} {related : α → β → Prop} {as : List α} {bs : List β}

theorem exists_left (all : List.Forall₂ related as bs) {b : β} (member : b ∈ bs) :
    ∃ a ∈ as, related a b := by
  induction all with
  | nil => cases member
  | cons first _ ih =>
    rcases List.mem_cons.mp member with rfl | later
    · exact ⟨_, List.mem_cons_self .., first⟩
    · obtain ⟨a, present, holds⟩ := ih later
      exact ⟨a, List.mem_cons_of_mem _ present, holds⟩

theorem exists_right (all : List.Forall₂ related as bs) {a : α} (member : a ∈ as) :
    ∃ b ∈ bs, related a b :=
  exists_left all.flip member

theorem forall_of_mem {other : α → β → Prop} (all : List.Forall₂ related as bs)
    (weaker : ∀ a ∈ as, ∀ b ∈ bs, related a b → other a b) : List.Forall₂ other as bs := by
  induction all with
  | nil => exact .nil
  | cons first _ ih =>
    refine .cons (weaker _ (List.mem_cons_self ..) _ (List.mem_cons_self ..) first) (ih ?_)
    exact fun a member b member' =>
      weaker a (List.mem_cons_of_mem _ member) b (List.mem_cons_of_mem _ member')

theorem map_eq_of_forall {γ : Type} {f : α → γ} {g : β → γ} (all : List.Forall₂ related as bs)
    (same : ∀ a b, related a b → f a = g b) : as.map f = bs.map g := by
  induction all with
  | nil => rfl
  | cons first _ ih => rw [List.map_cons, List.map_cons, same _ _ first, ih]

theorem forall_trans {γ : Type} {further : β → γ → Prop} {joined : α → γ → Prop} {cs : List γ}
    (first : List.Forall₂ related as bs) (second : List.Forall₂ further bs cs)
    (join : ∀ a b c, related a b → further b c → joined a c) :
    List.Forall₂ joined as cs := by
  induction first generalizing cs with
  | nil => cases second; exact .nil
  | cons head _ ih =>
    cases second with
    | cons head' rest => exact .cons (join _ _ _ head head') (ih rest)

end Lists

theorem bind_ok_iff {check : Checked PUnit} {next : PUnit → Checked PUnit} :
    (check >>= next) = .ok ⟨⟩ ↔ check = .ok ⟨⟩ ∧ next ⟨⟩ = .ok ⟨⟩ := by
  cases check with
  | error e => simp [bind, Except.bind]
  | ok _ => simp [bind, Except.bind]

def Judges {α : Type} (check : Checked α) : Prop := ∀ e, check = .error e → IsSemantic e

namespace Judges

variable {α β : Type}

theorem ok (a : α) : Judges (.ok a) := fun _ failed => by cases failed

theorem refuse (fault : SemanticError) : Judges (refuse fault : Checked α) := by
  intro e failed
  cases failed
  exact ⟨fault, rfl⟩

theorem bind {check : Checked α} {next : α → Checked β} (first : Judges check)
    (later : ∀ a, check = .ok a → Judges (next a)) : Judges (check >>= next) := by
  intro e failed
  cases outcome : check with
  | error other =>
    rw [outcome] at failed
    cases failed
    exact first e outcome
  | ok a =>
    rw [outcome] at failed
    exact later a outcome e failed

theorem forM {check : α → Checked PUnit} {items : List α} (each : ∀ a ∈ items, Judges (check a)) :
    Judges (items.forM check) := by
  intro e failed
  obtain ⟨a, member, failed⟩ := forM_error failed
  exact each a member e failed

end Judges

section Options

variable {α β : Type} {related other : α → β → Prop} {a? : Option α} {b? : Option β}

theorem rel_mono (both : Option.Rel related a? b?) (weaker : ∀ a b, related a b → other a b) :
    Option.Rel other a? b? := by
  cases both with
  | none => exact .none
  | some holds => exact .some (weaker _ _ holds)

theorem rel_flip (both : Option.Rel related a? b?) : Option.Rel (flip related) b? a? := by
  cases both with
  | none => exact .none
  | some holds => exact .some holds

theorem rel_trans {γ : Type} {further : β → γ → Prop} {joined : α → γ → Prop} {c? : Option γ}
    (first : Option.Rel related a? b?) (second : Option.Rel further b? c?)
    (join : ∀ a b c, related a b → further b c → joined a c) : Option.Rel joined a? c? := by
  cases first with
  | none =>
    cases second
    exact .none
  | some holds =>
    cases second with
    | some holds' => exact .some (join _ _ _ holds holds')

theorem none_of_rel (both : Option.Rel related a? b?) (absent : a? = none) : b? = none := by
  cases both with
  | none => rfl
  | some => cases absent

theorem exists_of_rel (both : Option.Rel related a? b?) {a : α} (present : a? = some a) :
    ∃ b, b? = some b ∧ related a b := by
  cases both with
  | none => cases present
  | some holds =>
    cases present
    exact ⟨_, rfl, holds⟩

theorem find_rel {items : List α} {others : List β} {passes : α → Bool} {passes' : β → Bool}
    (each : List.Forall₂ related items others) (same : ∀ a b, related a b → passes a = passes' b) :
    Option.Rel related (items.find? passes) (others.find? passes') := by
  induction each with
  | nil => exact .none
  | @cons a b items others first _ ih =>
    rw [List.find?_cons, List.find?_cons, same a b first]
    cases passes' b with
    | true => exact .some first
    | false => exact ih

theorem map_eq_of_rel {f : α → β} (both : Option.Rel (fun a b => f a = b) a? b?) :
    a?.map f = b? := by
  cases both with
  | none => rfl
  | some same => exact congrArg some same

end Options

section Steps

variable {σ ε α β : Type}

/-- A run from a state ends in a result and a state that satisfy `post`, or fails as `fault` says. -/
def Within (m : StateT σ (Except ε) α) (p : σ) (fault : ε → Prop) (post : α → σ → Prop) : Prop :=
  match m.run p with
  | .ok (a, q) => post a q
  | .error e => fault e

namespace Within

variable {p : σ} {fault : ε → Prop} {post : α → σ → Prop}

theorem of_ok {m : StateT σ (Except ε) α} {a : α} {q : σ} (run : Within m p fault post)
    (ok : m.run p = .ok (a, q)) : post a q := by
  simpa [Within, ok] using run

theorem of_error {m : StateT σ (Except ε) α} {e : ε} (run : Within m p fault post)
    (failed : m.run p = .error e) : fault e := by
  simpa [Within, failed] using run

theorem mono {m : StateT σ (Except ε) α} {other : α → σ → Prop} (run : Within m p fault post)
    (weaker : ∀ a q, post a q → other a q) : Within m p fault other := by
  unfold Within at *
  split
  · next a q ok => rw [ok] at run; exact weaker a q run
  · next e failed => rw [failed] at run; exact run

theorem weaken {m : StateT σ (Except ε) α} {other : ε → Prop} (run : Within m p fault post)
    (weaker : ∀ e, fault e → other e) : Within m p other post := by
  unfold Within at *
  split
  · next a q ok => rw [ok] at run; exact run
  · next e failed => rw [failed] at run; exact weaker e run

theorem pure {a : α} (holds : post a p) : Within (Pure.pure a) p fault post := holds

theorem throw {e : ε} (holds : fault e) : Within (throw e) p fault post := holds

theorem bind {m : StateT σ (Except ε) β} {f : β → StateT σ (Except ε) α}
    (run : Within m p fault fun b q => Within (f b) q fault post) :
    Within (m >>= f) p fault post := by
  unfold Within at *
  rw [StateT.run_bind]
  cases first : m.run p with
  | error e => simpa [first, Bind.bind, Except.bind] using run
  | ok r => simpa [first, Bind.bind, Except.bind] using run

theorem get {post : σ → σ → Prop} (holds : post p p) :
    Within (MonadState.get : StateT σ (Except ε) σ) p fault post := holds

theorem set {post : PUnit → σ → Prop} {q : σ} (holds : post ⟨⟩ q) :
    Within (MonadStateOf.set q : StateT σ (Except ε) PUnit) p fault post := holds

theorem modify {post : PUnit → σ → Prop} {f : σ → σ} (holds : post ⟨⟩ (f p)) :
    Within (modify f : StateT σ (Except ε) PUnit) p fault post := holds

theorem forM {f : β → StateT σ (Except ε) PUnit} {items : List β} {invariant : σ → Prop}
    (start : invariant p)
    (step : ∀ b ∈ items, ∀ q, invariant q → Within (f b) q fault fun _ r => invariant r) :
    Within (items.forM f) p fault fun _ q => invariant q := by
  induction items generalizing p with
  | nil => exact start
  | cons b rest ih =>
    apply bind
    apply (step b (by simp) p start).mono
    intro _ q holds
    exact ih holds fun c member => step c (List.mem_cons_of_mem _ member)

theorem forM_all {f : β → StateT σ (Except ε) PUnit} {items : List β} {invariant : σ → Prop}
    (later : σ → σ → Prop) (done : β → σ → Prop) (refl : ∀ q, later q q)
    (trans : ∀ q r t, later q r → later r t → later q t)
    (kept : ∀ b q r, later q r → done b q → done b r) (start : invariant p)
    (step : ∀ b ∈ items, ∀ q, invariant q → later p q →
      Within (f b) q fault fun _ r => invariant r ∧ later q r ∧ done b r) :
    Within (items.forM f) p fault fun _ q => invariant q ∧ later p q ∧ ∀ b ∈ items, done b q := by
  induction items generalizing p with
  | nil => exact ⟨start, refl p, by simp⟩
  | cons b rest ih =>
    apply bind
    apply (step b (by simp) p start (refl p)).mono
    intro _ q ⟨holds, further, first⟩
    apply (ih holds fun c member r holds further' =>
      step c (List.mem_cons_of_mem _ member) r holds (trans _ _ _ further further')).mono
    intro _ r ⟨holds, further', others⟩
    refine ⟨holds, trans _ _ _ further further', fun c member => ?_⟩
    rcases List.mem_cons.mp member with rfl | member
    · exact kept _ _ _ further' first
    · exact others c member

theorem mapM_all {γ : Type} {f : β → StateT σ (Except ε) γ} {items : List β}
    {invariant : σ → Prop} (later : σ → σ → Prop) (done : β → γ → σ → Prop)
    (refl : ∀ q, later q q) (trans : ∀ q r t, later q r → later r t → later q t)
    (kept : ∀ b c q r, later q r → done b c q → done b c r) (start : invariant p)
    (step : ∀ b ∈ items, ∀ q, invariant q → later p q →
      Within (f b) q fault fun c r => invariant r ∧ later q r ∧ done b c r) :
    Within (items.mapM f) p fault fun cs q =>
      invariant q ∧ later p q ∧ List.Forall₂ (fun b c => done b c q) items cs := by
  induction items generalizing p with
  | nil => exact ⟨start, refl p, .nil⟩
  | cons b rest ih =>
    rw [List.mapM_cons]
    apply bind
    apply (step b (by simp) p start (refl p)).mono
    intro c q ⟨holds, further, first⟩
    apply bind
    apply (ih holds fun d member r holds further' =>
      step d (List.mem_cons_of_mem _ member) r holds (trans _ _ _ further further')).mono
    intro cs r ⟨holds, further', others⟩
    exact pure ⟨holds, trans _ _ _ further further', .cons (kept _ _ _ _ further' first) others⟩

theorem mapM {γ : Type} {f : β → StateT σ (Except ε) γ} {items : List β} {invariant : σ → Prop}
    {related : β → γ → Prop} (start : invariant p)
    (step : ∀ b ∈ items, ∀ q, invariant q →
      Within (f b) q fault fun c r => invariant r ∧ related b c) :
    Within (items.mapM f) p fault fun cs q => invariant q ∧ List.Forall₂ related items cs := by
  induction items generalizing p with
  | nil => exact ⟨start, .nil⟩
  | cons b rest ih =>
    rw [List.mapM_cons]
    apply bind
    apply (step b (by simp) p start).mono
    intro c q ⟨holds, first⟩
    apply bind
    apply (ih holds fun d member => step d (List.mem_cons_of_mem _ member)).mono
    intro cs r ⟨holds, others⟩
    exact pure ⟨holds, .cons first others⟩

end Within

theorem mapM_keeps {f : α → StateM σ β} {holds : σ → Prop} {items : List α}
    (step : ∀ a ∈ items, ∀ p, holds p → holds (f a p).2) {p : σ} (start : holds p) :
    holds (items.mapM f p).2 := by
  induction items generalizing p with
  | nil => exact start
  | cons a rest ih =>
    rw [List.mapM_cons]
    exact ih (fun b member => step b (List.mem_cons_of_mem _ member))
      (step a (List.mem_cons_self ..) p start)

end Steps

end ApiSchema
