/-!
Splitting of text at a separating character, and joining it again.
-/

namespace ApiSchema.Text

/-- The pieces between separators; always at least one. -/
def split (separator : Char) : List Char → List (List Char)
  | [] => [[]]
  | c :: rest =>
    if c = separator then [] :: split separator rest
    else
      match split separator rest with
      | [] => [[c]]
      | piece :: pieces => (c :: piece) :: pieces

def join (separator : Char) : List (List Char) → List Char
  | [] => []
  | [piece] => piece
  | piece :: pieces => piece ++ separator :: join separator pieces

theorem split_ne_nil (separator : Char) (cs : List Char) : split separator cs ≠ [] := by
  cases cs with
  | nil => simp [split]
  | cons c rest =>
    by_cases h : c = separator
    · simp [split, h]
    · simp only [split, h, if_false]
      split <;> simp

theorem join_cons (separator : Char) (piece : List Char) {pieces : List (List Char)}
    (more : pieces ≠ []) :
    join separator (piece :: pieces) = piece ++ separator :: join separator pieces := by
  cases pieces with
  | nil => exact absurd rfl more
  | cons _ _ => rfl

theorem join_split (separator : Char) (cs : List Char) : join separator (split separator cs) = cs := by
  induction cs with
  | nil => rfl
  | cons c rest ih =>
    have more := split_ne_nil separator rest
    by_cases h : c = separator
    · rw [split, if_pos h, join_cons separator [] more, ih, h]
      rfl
    · cases hs : split separator rest with
      | nil => exact absurd hs more
      | cons piece pieces =>
        rw [hs] at ih
        rw [split, if_neg h, hs]
        cases pieces with
        | nil => exact congrArg (c :: ·) ih
        | cons _ _ => exact congrArg (c :: ·) ih

theorem not_mem_of_mem_split {separator : Char} {cs piece : List Char}
    (h : piece ∈ split separator cs) : separator ∉ piece := by
  induction cs generalizing piece with
  | nil =>
    rw [split, List.mem_singleton] at h
    rw [h]
    exact List.not_mem_nil
  | cons c rest ih =>
    by_cases same : c = separator
    · rw [split, if_pos same] at h
      rcases List.mem_cons.1 h with rfl | later
      · exact List.not_mem_nil
      · exact ih later
    · rw [split, if_neg same] at h
      cases hs : split separator rest with
      | nil => exact absurd hs (split_ne_nil separator rest)
      | cons first pieces =>
        rw [hs] at h ih
        rcases List.mem_cons.1 h with rfl | later
        · intro inside
          rcases List.mem_cons.1 inside with rfl | inside
          · exact same rfl
          · exact ih List.mem_cons_self inside
        · exact ih (List.mem_cons_of_mem first later)

/-- What a reader finds at each place of a text, in order. -/
def occurrences {α : Type} (read : List Char → Option α) : List Char → List α
  | [] => []
  | c :: rest =>
    match read (c :: rest) with
    | some found => found :: occurrences read rest
    | none => occurrences read rest

def after? : (literal : List Char) → List Char → Option (List Char)
  | [], rest => some rest
  | _ :: _, [] => none
  | l :: literal, c :: rest => if l = c then after? literal rest else none

end ApiSchema.Text
