import ApiSchema.Analysis.Recursion
import ApiSchema.Proofs.Analysis.Binding
import Mathlib.Data.Nat.Find

/-! Chains of aliases. One that does not end comes back to one of its names, and the aliases of that
circle are refused; so every reference of an accepted schema has a type. -/

namespace ApiSchema.Schema

/-- So many aliases lead from one name to another. -/
inductive Follows (s : Schema) : Nat → String → String → Prop where
  | here {name} : Follows s 0 name name
  | onward {n first d next location last} (defined : s.definition? first = some d)
    (behind : d.type.base = .reference next location) (rest : Follows s n next last) :
    Follows s (n + 1) first last

variable {s : Schema}

theorem link_onward {name next : String} (link : s.link name = .onward next) :
    ∃ d location, s.definition? name = some d ∧ d.type = ⟨[], .reference next location⟩ := by
  unfold Schema.link at link
  split at link
  · cases link
  · next d defined =>
    split at link
    · next other location written =>
      cases link
      exact ⟨d, location, defined, written⟩
    · cases link

theorem link_unbound {name : String} (link : s.link name = .unbound) :
    s.definition? name = none := by
  unfold Schema.link at link
  split at link
  · next unknown => exact unknown
  · split at link <;> cases link

theorem link_target {name : String} {type : TypeUse} (link : s.link name = .target type) :
    ∃ d, s.definition? name = some d ∧ d.type = type ∧
      ∀ next location, type ≠ ⟨[], .reference next location⟩ := by
  unfold Schema.link at link
  split at link
  · cases link
  · next d defined =>
    split at link
    · cases link
    · next other =>
      cases link
      exact ⟨d, defined, rfl, other⟩

theorem link_of_alias {name next : String} {location : Location} {d : Definition}
    (defined : s.definition? name = some d) (written : d.type = ⟨[], .reference next location⟩) :
    s.link name = .onward next := by
  simp only [Schema.link, defined, written]

theorem link_of_type {name : String} {d : Definition} (defined : s.definition? name = some d)
    (other : ∀ next location, d.type ≠ ⟨[], .reference next location⟩) :
    s.link name = .target d.type := by
  rw [Schema.link, defined]
  dsimp only
  split
  · next next location written => exact absurd written (other next location)
  · rfl

theorem name_of_definition {name : String} {d : Definition} (defined : s.definition? name = some d) :
    d ∈ s.definitions ∧ d.name = name := by
  have named := List.find?_some defined
  exact ⟨List.mem_of_find?_eq_some defined, by simpa using named⟩

theorem follows_of_chase_endless {n : Nat} :
    ∀ {name}, Link.chase s.link n name = .endless → ∃ last, s.Follows n name last := by
  induction n with
  | zero => exact fun _ => ⟨_, .here⟩
  | succ n ih =>
    intro name endless
    simp only [Link.chase] at endless
    split at endless
    · cases endless
    · next next onward =>
      obtain ⟨last, follows⟩ := ih endless
      obtain ⟨d, _, defined, written⟩ := link_onward onward
      exact ⟨last, .onward defined (congrArg TypeUse.base written) follows⟩
    · cases endless

theorem names_of_follows {n : Nat} {name last : String} (follows : s.Follows n name last) :
    ∃ names : List String, names.length = n ∧
      names.Pairwise (fun first later => ∃ k < n, s.Follows (k + 1) first later) ∧
      ∀ x ∈ names, (∃ k < n, s.Follows k name x) ∧ x ∈ s.definitions.map (·.name) := by
  induction follows with
  | here => exact ⟨[], rfl, .nil, by simp⟩
  | @onward n first d next location last defined behind rest ih =>
    obtain ⟨names, length, ordered, onChain⟩ := ih
    refine ⟨first :: names, by simp [length], .cons ?_ (ordered.imp ?_), ?_⟩
    · intro later member
      obtain ⟨k, less, follows⟩ := (onChain later member).1
      exact ⟨k, by omega, .onward defined behind follows⟩
    · rintro first later ⟨k, less, follows⟩
      exact ⟨k, by omega, follows⟩
    · intro x member
      rcases List.mem_cons.mp member with rfl | later
      · obtain ⟨present, named⟩ := name_of_definition defined
        exact ⟨⟨0, by omega, .here⟩, named ▸ List.mem_map_of_mem present⟩
      · obtain ⟨k, less, follows⟩ := (onChain x later).1
        exact ⟨⟨k + 1, by omega, .onward defined behind follows⟩, (onChain x later).2⟩

theorem circle_of_follows {name last : String}
    (follows : s.Follows (s.definitions.length + 1) name last) :
    ∃ x, ∃ k ≤ s.definitions.length, s.Follows (k + 1) x x := by
  obtain ⟨names, length, ordered, onChain⟩ := names_of_follows follows
  by_contra noCircle
  have distinct : names.Nodup := by
    apply ordered.imp
    rintro first later ⟨k, less, follows⟩ rfl
    exact noCircle ⟨first, k, by omega, follows⟩
  have fits : names.length ≤ (s.definitions.map (·.name)).length :=
    (List.subperm_of_subset distinct fun x member => (onChain x member).2).length_le
  rw [List.length_map] at fits
  omega

theorem chase_unbound {n : Nat} {last : String} :
    ∀ {name}, Link.chase s.link n name = .unbound last →
      s.definition? last = none ∧
        ∀ location, ∃ place, s.Reaches (.reference name location) (.reference last place) := by
  induction n with
  | zero => intro name unbound; cases unbound
  | succ n ih =>
    intro name unbound
    simp only [Link.chase] at unbound
    split at unbound
    · next link =>
      cases unbound
      exact ⟨link_unbound link, fun location => ⟨location, .refl⟩⟩
    · next next onward =>
      obtain ⟨unknown, reaches⟩ := ih unbound
      refine ⟨unknown, fun location => ?_⟩
      obtain ⟨d, between, defined, written⟩ := link_onward onward
      obtain ⟨place, way⟩ := reaches between
      have first : s.Leads (.reference name location) d.type.base := .reference defined
      rw [written] at first
      exact ⟨place, .head first way⟩
    · cases unbound

/-- The search for a name goes through a chain of aliases up to that name, because what it has seen
is further away from it. -/
theorem reaches_name_of_follows {name : String} {n : Nat} :
    ∀ {fuel x location seen}, n < fuel → s.Follows n x name →
      (∀ m < n, ¬ s.Follows m x name) → (∀ y ∈ seen, ∀ m ≤ n, ¬ s.Follows m y name) →
      ((s.reachesName name fuel (.reference x location)).run seen).1 = true := by
  induction n with
  | zero =>
    intro fuel x location seen enough follows _ _
    cases follows
    obtain ⟨fuel, rfl⟩ := Nat.exists_eq_add_one.mpr enough
    simp [reachesName]
    rfl
  | succ n ih =>
    intro fuel x location seen enough follows nearest apart
    obtain ⟨fuel, rfl⟩ := Nat.exists_eq_add_one.mpr (Nat.zero_lt_of_lt enough)
    have different : x ≠ name := by
      rintro rfl
      exact nearest 0 (by omega) .here
    have unseen : x ∉ seen := fun member => apart x member _ (Nat.le_refl _) follows
    cases follows with
    | @onward _ _ d next between _ defined behind rest =>
      have further : ((s.reachesName name fuel (.reference next between)).run (x :: seen)).1 :=
        ih (by omega) rest
          (fun m less follows => nearest (m + 1) (by omega) (.onward defined behind follows))
          (by
            intro y member m le follows
            rcases List.mem_cons.mp member with rfl | old
            · exact nearest m (by omega) follows
            · exact apart y old m (by omega) follows)
      simpa [reachesName, different, defined, behind, TypeUse.isNested, unseen] using further

theorem recursion_bound_le (s : Schema) : s.definitions.length + 2 ≤ s.recursionBound := by
  unfold recursionBound
  exact Nat.le_mul_of_pos_right _ (by omega)

theorem recursive_of_circle {x : String} {k : Nat} (short : k ≤ s.definitions.length)
    (circle : s.Follows (k + 1) x x) :
    ∃ d ∈ s.definitions, s.isRecursive d = true ∧ d.type.isNested = false := by
  cases circle with
  | @onward _ _ d next location _ defined behind rest =>
    obtain ⟨member, named⟩ := name_of_definition defined
    classical
    have some : ∃ m, s.Follows m next x := ⟨k, rest⟩
    have near : Nat.find some ≤ k := Nat.find_min' some rest
    have bound := s.recursion_bound_le
    have found : ((s.reachesName x s.recursionBound (.reference next location)).run []).1 :=
      reaches_name_of_follows (by omega) (Nat.find_spec some) (fun m => Nat.find_min some)
        (fun _ member => by cases member)
    refine ⟨d, member, ?_, ?_⟩
    · rw [isRecursive, named, behind]
      exact found
    · rw [TypeUse.isNested, behind, Bool.and_false]

/-- What is recursive has to be a struct or an enum with a value that comes to an end. -/
theorem check_recursions_ok : s.checkRecursions = .ok () ↔
    ∀ d ∈ s.definitions, s.isRecursive d = true →
      d.type.isNested = true ∧ s.isEndless d = false := by
  refine forM_ok_iff.trans (forall₂_congr fun d _ => ?_)
  cases s.isRecursive d <;> cases d.type.isNested <;> cases s.isEndless d <;> simp [refuse]

theorem check_recursions_judges (s : Schema) : Judges s.checkRecursions := by
  apply Judges.forM
  intro d _
  split
  · exact .ok _
  · split
    · exact .refuse _
    · split
      · exact .refuse _
      · exact .ok _

theorem not_follows_of_check_recursions (passed : s.checkRecursions = .ok ()) (name last : String) :
    ¬ s.Follows (s.definitions.length + 1) name last := by
  intro follows
  obtain ⟨x, k, short, circle⟩ := circle_of_follows follows
  obtain ⟨d, member, recursive, bare⟩ := recursive_of_circle short circle
  have refused := forM_ok_iff.mp passed d member
  simp [recursive, bare, refuse] at refused

def Resolved (s : Schema) : Prop :=
  ∀ name location, s.Known (.reference name location) → ∃ t, s.resolve name = .ok t

theorem resolved_of_bound (bound : s.Bound) (passed : s.checkRecursions = .ok ()) :
    s.Resolved := by
  intro name location known
  unfold resolve
  cases chain : Link.chase s.link (s.definitions.length + 1) name with
  | target t => exact ⟨t, rfl⟩
  | unbound last =>
    obtain ⟨unknown, reaches⟩ := chase_unbound chain
    obtain ⟨place, way⟩ := reaches location
    have defined := bound last place (known.reaches way)
    rw [unknown] at defined
    cases defined
  | endless =>
    obtain ⟨last, follows⟩ := follows_of_chase_endless chain
    exact absurd follows (not_follows_of_check_recursions passed name last)

end ApiSchema.Schema
