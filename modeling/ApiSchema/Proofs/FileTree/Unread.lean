import ApiSchema.Tree.Parser

/-! How much is left to read in a tree of files. A file that is read under its resolved path is one of
the entries, and its tokens are bounded by its size, so that each file that is opened leaves less. -/

namespace ApiSchema

namespace FilePath

theorem flatten_plain (segments : List String) : ".." ∉ flatten segments := by
  have step : ∀ kept : List String, ".." ∉ kept →
      ".." ∉ segments.foldl (fun kept s => if s = ".." then kept.dropLast else kept ++ [s]) kept := by
    induction segments with
    | nil => exact fun _ => id
    | cons s rest ih =>
      intro kept plain
      apply ih
      dsimp only
      split
      · exact fun member => plain (List.dropLast_subset _ member)
      · next other =>
        intro member
        rcases List.mem_append.mp member with before | last
        · exact plain before
        · exact other (List.mem_singleton.mp last).symm
  exact step [] List.not_mem_nil

end FilePath

namespace FileTree

variable {t : FileTree} {p : FilePath} {text : String}

theorem walk_plain {segments : List String} (plain : ".." ∉ segments) : ∀ {place reached},
    t.walk place segments = .ok reached → reached = place ++ segments := by
  induction segments with
  | nil =>
    intro place reached walked
    cases walked
    exact (List.append_nil _).symm
  | cons s rest ih =>
    intro place reached walked
    have other : s ≠ ".." := fun same => plain (same ▸ List.mem_cons_self ..)
    unfold walk at walked
    split at walked
    · cases walked
    · split at walked
      · cases walked
      · split at walked
        · cases walked
        · rw [ih (fun member => plain (List.mem_cons_of_mem _ member)) walked, List.append_assoc]
          rfl

theorem lookup_of_read_bytes {segments : List String} (plain : ".." ∉ segments)
    {content : List UInt8} (read : t.readBytes ⟨1, segments⟩ = .ok content) :
    t.entries.lookup segments = some (.file content) := by
  unfold readBytes at read
  split at read
  · cases read
  · next reached located =>
    unfold locate at located
    split at located
    · cases located
    · obtain rfl := walk_plain plain located
      split at read
      · next found =>
        cases read
        unfold get? at found
        split at found
        · cases found
        · exact found
      · cases read
      · cases read

theorem unify_line_ends_length_le (cs : List Char) : (unifyLineEnds cs).length ≤ cs.length := by
  fun_induction unifyLineEnds cs with
  | case1 => exact Nat.le_refl _
  | case2 rest ih => simp only [List.length_cons]; omega
  | case3 rest _ ih => simp only [List.length_cons]; omega
  | case4 c rest _ _ ih => simp only [List.length_cons]; omega

theorem length_le_size (cs : List Char) : cs.length ≤ (String.ofList cs).utf8ByteSize := by
  induction cs with
  | nil => exact Nat.zero_le _
  | cons c rest ih =>
    have one := c.utf8Size_pos
    rw [String.ofList_cons, String.utf8ByteSize_append, String.utf8ByteSize_singleton,
      List.length_cons]
    omega

theorem length_le_of_utf8 {content : List UInt8} (decoded : String.fromUTF8? ⟨content.toArray⟩ = some text) :
    text.toList.length ≤ content.length := by
  have size : text.utf8ByteSize = content.length := by
    unfold String.fromUTF8? at decoded
    split at decoded
    · cases decoded
      rfl
    · cases decoded
  have short := length_le_size text.toList
  rwa [String.ofList_toList, size] at short

theorem read_text_ok (read : t.readText p = .ok text) :
    ∃ content, t.readBytes p = .ok content ∧ text.length ≤ content.length := by
  unfold readText at read
  split at read
  · cases read
  · split at read
    · cases read
    · next content bytes =>
      split at read
      · next decoded decodes =>
        cases read
        refine ⟨content, bytes, ?_⟩
        rw [String.length_ofList]
        exact Nat.le_trans (unify_line_ends_length_le _) (length_le_of_utf8 decodes)
      · cases read

def bytesLeft (read : List FilePath) : List String × FileEntry → Nat
  | (segments, .file content) => if read.contains ⟨1, segments⟩ then 0 else content.length
  | (_, .directory) => 0

/-- The number of bytes in all files but those that have been read. -/
def unread (t : FileTree) (read : List FilePath) : Nat := total (t.entries.map (bytesLeft read))

theorem total_append (ns ms : List Nat) : total (ns ++ ms) = total ns + total ms := by
  induction ns with
  | nil => exact (Nat.zero_add _).symm
  | cons n rest ih => rw [List.cons_append, total_cons, total_cons, ih, Nat.add_assoc]

theorem total_map_le {α : Type} {f g : α → Nat} (each : ∀ a, f a ≤ g a) (items : List α) :
    total (items.map f) ≤ total (items.map g) := by
  induction items with
  | nil => exact Nat.le_refl _
  | cons a rest ih => exact Nat.add_le_add (each a) ih

theorem unread_le_total (t : FileTree) (read : List FilePath) : t.unread read ≤ t.totalSize := by
  refine total_map_le (fun e => ?_) _
  obtain ⟨segments, content | _⟩ := e
  · change (if read.contains ⟨1, segments⟩ then 0 else content.length) ≤ content.length
    split
    · exact Nat.zero_le _
    · exact Nat.le_refl _
  · exact Nat.le_refl _

theorem bytes_left_mono (read : List FilePath) (p : FilePath) (e : List String × FileEntry) :
    bytesLeft (p :: read) e ≤ bytesLeft read e := by
  obtain ⟨segments, content | _⟩ := e
  · unfold bytesLeft
    by_cases known : ⟨1, segments⟩ ∈ read
    · simp [known]
    · simp only [List.contains_eq_mem, known, decide_false, Bool.false_eq_true, if_false]
      split
      · exact Nat.zero_le _
      · exact Nat.le_refl _
  · exact Nat.le_refl _

theorem unread_cons {segments : List String} {content : List UInt8} {read : List FilePath}
    (held : t.entries.lookup segments = some (.file content)) (new : ⟨1, segments⟩ ∉ read) :
    content.length + t.unread (⟨1, segments⟩ :: read) ≤ t.unread read := by
  -- A path may have more entries than the one that is found, so the others are only bounded.
  obtain ⟨before, after, split, _⟩ := List.lookup_eq_some_iff.mp held
  have first := total_map_le (bytes_left_mono read ⟨1, segments⟩) before
  have last := total_map_le (bytes_left_mono read ⟨1, segments⟩) after
  have none : bytesLeft (⟨1, segments⟩ :: read) (segments, .file content) = 0 := by simp [bytesLeft]
  have all : bytesLeft read (segments, .file content) = content.length := by simp [bytesLeft, new]
  unfold unread
  rw [split]
  simp only [List.map_append, List.map_cons, total_append, total_cons, none, all]
  omega

/-- A file that is opened under its resolved path has no more characters than it leaves less bytes to
read. -/
theorem unread_of_read_text {q : FilePath} {read : List FilePath}
    (opened : t.readText (t.resolve q) = .ok text) (new : t.resolve q ∉ read) :
    text.length + t.unread (t.resolve q :: read) ≤ t.unread read := by
  obtain ⟨content, bytes, short⟩ := read_text_ok opened
  have held := lookup_of_read_bytes (FilePath.flatten_plain _) bytes
  exact Nat.le_trans (Nat.add_le_add_right short _) (unread_cons held new)

end FileTree

end ApiSchema
