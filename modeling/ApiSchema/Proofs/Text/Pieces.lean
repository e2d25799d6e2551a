import ApiSchema.Text.Pieces
import Mathlib.Tactic.Common

/-! Pieces of texts. What has been joined with a separator is split at it again, and what is found
at the places of a text stands there one behind the other. -/

namespace ApiSchema.Text

section Separators

variable {separator : Char} {piece rest : List Char} {pieces : List (List Char)}

theorem split_plain (plain : separator ∉ piece) : split separator piece = [piece] := by
  induction piece with
  | nil => rfl
  | cons c piece ih =>
    obtain ⟨other, plain⟩ := not_or.mp (mt List.mem_cons.mpr plain)
    simp [split, Ne.symm other, ih plain]

theorem split_append (plain : separator ∉ piece) :
    split separator (piece ++ separator :: rest) = piece :: split separator rest := by
  induction piece with
  | nil => simp [split]
  | cons c piece ih =>
    obtain ⟨other, plain⟩ := not_or.mp (mt List.mem_cons.mpr plain)
    simp [split, Ne.symm other, ih plain]

theorem split_join (some : pieces ≠ []) (plain : ∀ piece ∈ pieces, separator ∉ piece) :
    split separator (join separator pieces) = pieces := by
  induction pieces with
  | nil => exact absurd rfl some
  | cons first others ih =>
    obtain ⟨here, behind⟩ := List.forall_mem_cons.mp plain
    cases others with
    | nil => exact split_plain here
    | cons second others =>
      rw [join_cons separator first (List.cons_ne_nil _ _), split_append here,
        ih (List.cons_ne_nil _ _) behind]

theorem mem_join {c : Char} (member : c ∈ join separator pieces) :
    c = separator ∨ ∃ piece ∈ pieces, c ∈ piece := by
  induction pieces with
  | nil => cases member
  | cons first others ih =>
    cases others with
    | nil => exact .inr ⟨first, List.mem_cons_self .., member⟩
    | cons second others =>
      rw [join_cons separator first (List.cons_ne_nil _ _)] at member
      rcases List.mem_append.mp member with here | behind
      · exact .inr ⟨first, List.mem_cons_self .., here⟩
      · rcases List.mem_cons.mp behind with same | behind
        · exact .inl same
        · exact (ih behind).imp_right fun found =>
            found.imp fun piece inside => ⟨List.mem_cons_of_mem _ inside.1, inside.2⟩

inductive Behind (separator : Char) : List Char → List (List Char) → Prop where
  | nothing : Behind separator [] []
  | further {rest : List Char} {pieces : List (List Char)} (divided : split separator rest = pieces) :
    Behind separator (separator :: rest) pieces

theorem exists_behind {text : List Char} (apart : text = [] ∨ ∃ rest, text = separator :: rest) :
    ∃ pieces, Behind separator text pieces := by
  rcases apart with rfl | ⟨rest, rfl⟩
  · exact ⟨[], .nothing⟩
  · exact ⟨_, .further rfl⟩

theorem split_two_iff {first second cs : List Char} :
    split separator cs = first :: second :: pieces ↔ separator ∉ first ∧ separator ∉ second ∧
      ∃ text, cs = first ++ separator :: (second ++ text) ∧ Behind separator text pieces := by
  constructor
  · intro divided
    have plain : ∀ piece ∈ split separator cs, separator ∉ piece := fun _ => not_mem_of_mem_split
    have whole := join_split separator cs
    simp only [divided, List.forall_mem_cons] at plain
    rw [divided, join_cons separator first (List.cons_ne_nil _ _)] at whole
    refine ⟨plain.1, plain.2.1, ?_⟩
    cases pieces with
    | nil => exact ⟨[], by simp [← whole, join], .nothing⟩
    | cons third others =>
      rw [join_cons separator second (List.cons_ne_nil _ _)] at whole
      exact ⟨_, whole.symm, .further (split_join (List.cons_ne_nil _ _) plain.2.2)⟩
  · intro parts
    obtain ⟨here, there, text, rfl, behind⟩ := parts
    rw [split_append here]
    cases behind with
    | nothing => rw [List.append_nil, split_plain there]
    | further divided => rw [split_append there, divided]

end Separators

theorem after_iff {literal cs rest : List Char} : after? literal cs = some rest ↔ cs = literal ++ rest := by
  induction literal generalizing cs with
  | nil => simp [after?, eq_comm]
  | cons l literal ih =>
    cases cs with
    | nil => simp [after?]
    | cons c cs => by_cases same : l = c <;> simp [after?, same, ih, eq_comm]

section Items

variable {α : Type}

/-- Items that stand in a text, among characters at which none of them begins. -/
inductive Among (spells : α → List Char → Prop) : List α → List Char → Prop where
  | nil : Among spells [] []
  | item {a own items rest} (spelled : spells a own) (others : Among spells items rest) :
    Among spells (a :: items) (own ++ rest)
  | other {c items rest} (bare : ∀ a own, spells a own → ¬ own <+: c :: rest)
    (others : Among spells items rest) : Among spells items (c :: rest)

/-- The reader finds what is spelled at the front of a text, and what is spelled has the mark at its
front and nowhere else. -/
structure Finds (read : List Char → Option α) (spells : α → List Char → Prop) (mark : Char) : Prop where
  found : ∀ {cs a}, read cs = some a ↔ ∃ own, spells a own ∧ own <+: cs
  marked : ∀ {a own}, spells a own → ∃ tail, own = mark :: tail ∧ mark ∉ tail

variable {read : List Char → Option α} {spells : α → List Char → Prop} {mark : Char}
  {items : List α} {cs tail rest : List Char}

theorem occurrences_map {β : Type} (f : α → β) (cs : List Char) :
    (occurrences read cs).map f = occurrences (fun cs => (read cs).map f) cs := by
  induction cs with
  | nil => rfl
  | cons c cs ih => cases found : read (c :: cs) <;> simp [occurrences, found, ih]

namespace Finds

theorem none_iff (finds : Finds read spells mark) :
    read cs = none ↔ ∀ a own, spells a own → ¬ own <+: cs := by
  rw [Option.eq_none_iff_forall_ne_some]
  exact ⟨fun none a own spelled front => none a (finds.found.mpr ⟨own, spelled, front⟩),
    fun bare a found => (finds.found.mp found).elim fun own spelled => bare a own spelled.1 spelled.2⟩

theorem read_other (finds : Finds read spells mark) {c : Char} (other : mark ≠ c) :
    read (c :: rest) = none := by
  refine finds.none_iff.mpr fun a own spelled front => ?_
  obtain ⟨tail, rfl, _⟩ := finds.marked spelled
  exact other (List.cons_prefix_cons.mp front).1

theorem occurrences_skip (finds : Finds read spells mark) (plain : mark ∉ tail) :
    occurrences read (tail ++ rest) = occurrences read rest := by
  induction tail with
  | nil => rfl
  | cons c tail ih =>
    obtain ⟨other, plain⟩ := not_or.mp (mt List.mem_cons.mpr plain)
    simp [occurrences, finds.read_other other, ih plain]

theorem occurrences_bare (finds : Finds read spells mark) (none : read (mark :: (tail ++ rest)) = none)
    (plain : mark ∉ tail) : occurrences read (mark :: (tail ++ rest)) = occurrences read rest := by
  simp [occurrences, none, finds.occurrences_skip plain]

theorem occurrences_own (finds : Finds read spells mark) {a : α} {own : List Char}
    (spelled : spells a own) : occurrences read (own ++ rest) = a :: occurrences read rest := by
  have here := finds.found.mpr ⟨own, spelled, List.prefix_append own rest⟩
  obtain ⟨tail, rfl, plain⟩ := finds.marked spelled
  rw [List.cons_append] at here ⊢
  simp [occurrences, here, finds.occurrences_skip plain]

theorem occurrences_of_among (finds : Finds read spells mark) (among : Among spells items cs) :
    occurrences read cs = items := by
  induction among with
  | nil => rfl
  | item spelled _ ih => rw [finds.occurrences_own spelled, ih]
  | other bare _ ih => rw [occurrences, finds.none_iff.mpr bare]; exact ih

theorem among_occurrences (finds : Finds read spells mark) :
    ∀ cs, Among spells (occurrences read cs) cs
  | [] => .nil
  | c :: cs => by
    cases here : read (c :: cs) with
    | none =>
      rw [occurrences, here]
      exact .other (finds.none_iff.mp here) (among_occurrences finds cs)
    | some a =>
      -- an item holds no mark but its first character, so nothing begins inside of it
      obtain ⟨own, spelled, rest, whole⟩ := finds.found.mp here
      obtain ⟨tail, rfl, plain⟩ := finds.marked spelled
      have shorter : rest.length < (c :: cs).length := by
        rw [← whole, List.length_append]
        exact Nat.lt_add_of_pos_left (Nat.succ_pos _)
      rw [← whole, finds.occurrences_own spelled]
      exact .item spelled (among_occurrences finds rest)
  termination_by cs => cs.length
  decreasing_by
  · exact Nat.lt_succ_self _
  · exact shorter

theorem among_iff (finds : Finds read spells mark) :
    Among spells items cs ↔ occurrences read cs = items :=
  ⟨finds.occurrences_of_among, fun same => same ▸ finds.among_occurrences cs⟩

end Finds

end Items

end ApiSchema.Text
