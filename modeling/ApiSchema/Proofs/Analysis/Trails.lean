import ApiSchema.Compatibility
import ApiSchema.Proofs.Analysis.Aliases
import Mathlib.Algebra.Order.BigOperators.Group.List
import Mathlib.Algebra.Order.Group.Nat

/-! What a type is in the end, and the definitions on the way there. In an accepted schema the way
ends, so that it passes no definition twice. -/

namespace ApiSchema.Schema

/-- The definitions that lead from a base to one that is no reference, whatever suffixes they
have. -/
inductive Trail (s : Schema) : TypeBase → List Definition → Prop where
  | primitive {kind} : Trail s (.primitive kind) []
  | struct {t} : Trail s (.struct t) []
  | enum {e} : Trail s (.enum e) []
  | reference {name location d ds} (defined : s.definition? name = some d)
    (rest : Trail s d.type.base ds) : Trail s (.reference name location) (d :: ds)

/-- A type stands for another one if references without suffixes lead to it. -/
inductive Stands (s : Schema) : TypeUse → TypeUse → Prop where
  | self {t} : Stands s t t
  | reference {name location d u} (defined : s.definition? name = some d)
    (further : Stands s d.type u) : Stands s ⟨[], .reference name location⟩ u

def suffixesAhead (t : TypeUse) (ds : List Definition) : Nat :=
  t.suffixes.length + total (ds.map (·.type.suffixes.length))

variable {s : Schema} {base : TypeBase} {t u : TypeUse} {ds : List Definition}

namespace Trail

theorem unique (trail : s.Trail base ds) :
    ∀ {ds'}, s.Trail base ds' → ds' = ds := by
  induction trail with
  | primitive | struct | enum =>
    intro ds' other
    cases other
    rfl
  | reference defined _ ih =>
    intro ds' other
    cases other with
    | reference defined' rest' =>
      rw [defined] at defined'
      cases defined'
      rw [ih rest']

theorem moved {name : String} {location : Location} (trail : s.Trail (.reference name location) ds)
    (place : Location) : s.Trail (.reference name place) ds := by
  cases trail with
  | reference defined rest => exact .reference defined rest

theorem from_member (trail : s.Trail base ds) {d : Definition} (member : d ∈ ds) :
    d ∈ s.definitions ∧ ∀ location, ∃ rest, rest.length < ds.length ∧
      s.Trail (.reference d.name location) (d :: rest) := by
  induction trail with
  | primitive | struct | enum => cases member
  | @reference name location first ds defined rest ih =>
    rcases List.mem_cons.mp member with rfl | later
    · obtain ⟨present, named⟩ := name_of_definition defined
      exact ⟨present, fun _ => ⟨ds, by simp, .reference (named ▸ defined) rest⟩⟩
    · obtain ⟨present, further⟩ := ih later
      refine ⟨present, fun location => ?_⟩
      obtain ⟨others, shorter, trail⟩ := further location
      exact ⟨others, by simp; omega, trail⟩

theorem distinct (trail : s.Trail base ds) : (ds.map (·.name)).Nodup := by
  induction trail with
  | primitive | struct | enum => exact .nil
  | @reference name location first ds defined rest ih =>
    refine List.nodup_cons.mpr ⟨?_, ih⟩
    intro again
    obtain ⟨d, member, same⟩ := List.mem_map.mp again
    obtain ⟨_, further⟩ := rest.from_member member
    obtain ⟨others, shorter, trail⟩ := further location
    have whole : s.Trail (.reference name location) (first :: ds) := .reference defined rest
    rw [same.trans (name_of_definition defined).2] at trail
    have equal := congrArg List.length (whole.unique trail)
    simp only [List.length_cons] at equal
    omega

theorem of_not_follows (bound : s.Bound) {n : Nat} :
    ∀ {base}, s.Known base →
      (∀ name location last, base = .reference name location → ¬ s.Follows n name last) →
      ∃ ds, s.Trail base ds := by
  induction n with
  | zero =>
    intro base known short
    cases base with
    | primitive kind => exact ⟨[], .primitive⟩
    | struct t => exact ⟨[], .struct⟩
    | enum e => exact ⟨[], .enum⟩
    | reference name location => exact absurd .here (short name location name rfl)
  | succ n ih =>
    intro base known short
    cases base with
    | primitive kind => exact ⟨[], .primitive⟩
    | struct t => exact ⟨[], .struct⟩
    | enum e => exact ⟨[], .enum⟩
    | reference name location =>
      obtain ⟨d, defined⟩ := Option.isSome_iff_exists.mp (bound name location known)
      have further : s.Known d.type.base := known.reaches (.single (.reference defined))
      obtain ⟨ds, rest⟩ := ih further fun next place last behind follows =>
        short name location last rfl (.onward defined behind follows)
      exact ⟨d :: ds, .reference defined rest⟩

theorem total_le (trail : s.Trail base ds) (measure : Definition → Nat) :
    total (ds.map measure) ≤ total (s.definitions.map measure) := by
  have once : ds.Nodup := List.Nodup.of_map _ trail.distinct
  have among : ds.Subperm s.definitions :=
    List.subperm_of_subset once fun d member => (trail.from_member member).1
  obtain ⟨part, permuted, within⟩ := among
  have equal : total (part.map measure) = total (ds.map measure) := (permuted.map measure).sum_nat
  rw [← equal]
  exact (within.map measure).sum_le_sum fun _ _ => Nat.zero_le _

end Trail

theorem exists_trail (bound : s.Bound) (passed : s.checkRecursions = .ok ()) (known : s.Known base) :
    ∃ ds, s.Trail base ds :=
  Trail.of_not_follows bound known fun name _ last _ =>
    not_follows_of_check_recursions passed name last

namespace Stands

theorem known (stands : s.Stands t u) (known : s.Known t.base) : s.Known u.base := by
  induction stands with
  | self => exact known
  | reference defined _ ih => exact ih (known.reaches (.single (.reference defined)))

theorem trail (stands : s.Stands t u) (trail : s.Trail t.base ds) :
    ∃ ds', s.Trail u.base ds' ∧ suffixesAhead u ds' = suffixesAhead t ds := by
  induction stands generalizing ds with
  | self => exact ⟨ds, trail, rfl⟩
  | reference defined _ ih =>
    cases trail with
    | reference defined' rest =>
      rw [defined] at defined'
      cases defined'
      obtain ⟨ds', further, same⟩ := ih rest
      refine ⟨ds', further, same.trans ?_⟩
      simp [suffixesAhead, total_cons]

end Stands

theorem stands_of_chase (fuel : Nat) :
    ∀ {name}, Link.chase s.link fuel name = .target u →
      ∀ location, s.Stands ⟨[], .reference name location⟩ u ∧
        ∀ next place, u ≠ ⟨[], .reference next place⟩ := by
  induction fuel with
  | zero => intro name found; cases found
  | succ fuel ih =>
    intro name found location
    simp only [Link.chase] at found
    split at found
    · cases found
    · next next onward =>
      obtain ⟨d, place, defined, written⟩ := link_onward onward
      obtain ⟨further, ends⟩ := ih found place
      rw [← written] at further
      exact ⟨.reference defined further, ends⟩
    · next target =>
      cases found
      unfold link at target
      split at target
      · cases target
      · next d defined =>
        split at target
        · cases target
        · next other =>
          cases target
          exact ⟨.reference defined .self, other⟩

theorem stands_subject (resolved : s.Resolved) (known : s.Known t.base) :
    s.Stands t (s.subject t) ∧ ∀ name location, s.subject t ≠ ⟨[], .reference name location⟩ := by
  unfold subject unwrap
  split
  · next found =>
    split at found
    · next name location =>
      obtain ⟨type, target⟩ := resolved name location known
      rw [target] at found
      cases found
      unfold resolve at target
      cases chain : Link.chase s.link (s.definitions.length + 1) name with
      | target type =>
        rw [chain] at target
        cases target
        exact stands_of_chase _ chain location
      | unbound last => rw [chain] at target; cases target
      | endless => rw [chain] at target; cases target
    · next other =>
      cases found
      exact ⟨.self, other⟩
  · next e failed =>
    split at failed
    · next name location =>
      obtain ⟨type, target⟩ := resolved name location known
      rw [target] at failed
      cases failed
    · cases failed

end ApiSchema.Schema
