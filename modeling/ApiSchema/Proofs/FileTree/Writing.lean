import ApiSchema.Proofs.FileTree.Making

/-! Files that are written at places of their own. What is read elsewhere is as it was before, and so is what
is read on plain ways when directories have been made. -/

namespace ApiSchema

theorem FilePath.parent_below (directory : FilePath) (name : String) :
    (directory.join ⟨0, [name]⟩).parent = directory := by
  have init : (directory.segments ++ [name]).dropLast = directory.segments := List.dropLast_concat
  exact congrArg (FilePath.mk directory.slashes) init

namespace FileTree

variable {t t' : FileTree} {place reached : List String} {segments : List String}

section Overlays

/-- Files may stand at some fresh places where there was no directory. -/
structure Overlays (fresh : List String → Prop) (t t' : FileTree) : Prop where
  working : t'.workingDirectory = t.workingDirectory
  each : ∀ place, t'.get? place = t.get? place ∨
    (fresh place ∧ t.get? place ≠ some .directory ∧ ∃ content, t'.get? place = some (.file content))

variable {fresh : List String → Prop} {p directory : FilePath} {content : List UInt8}

namespace Overlays

theorem refl (fresh : List String → Prop) (t : FileTree) : Overlays fresh t t := ⟨rfl, fun _ => .inl rfl⟩

theorem directory_iff (overlaid : Overlays fresh t t') (place : List String) :
    t'.isDirectory place = true ↔ t.isDirectory place = true := by
  rw [is_directory_iff, is_directory_iff]
  rcases overlaid.each place with same | ⟨_, other, content, file⟩
  · rw [same]
  · rw [file]
    exact ⟨nofun, fun held => absurd held other⟩

theorem present (overlaid : Overlays fresh t t') (place : List String) (held : (t.get? place).isSome = true) :
    (t'.get? place).isSome = true := by
  rcases overlaid.each place with same | ⟨_, _, content, file⟩
  · rwa [same]
  · rw [file]
    rfl

theorem locate (overlaid : Overlays fresh t t') (located : t.locate p = .ok reached) :
    t'.locate p = .ok reached :=
  locate_mono overlaid.working (fun place => (overlaid.directory_iff place).mpr) overlaid.present located

theorem ready (overlaid : Overlays fresh t t') (ready : Ready t directory place) : Ready t' directory place := by
  refine ⟨ready.named, ready.short, fun p listed => ?_, overlaid.locate ready.located⟩
  obtain ⟨spot, located, directory⟩ := ready.above p listed
  exact ⟨spot, overlaid.locate located, (overlaid.directory_iff spot).mpr directory⟩

/-- A way that does not end at a fresh place was there before: no way leads through a file. -/
theorem walk (overlaid : Overlays fresh t t') (old : ¬ fresh reached)
    (walked : t'.walk place segments = .ok reached) : t.walk place segments = .ok reached := by
  induction segments generalizing place with
  | nil => exact walked
  | cons s rest ih =>
    obtain ⟨directory, step⟩ := walk_cons_ok.mp walked
    refine walk_cons_ok.mpr ⟨(overlaid.directory_iff place).mp directory, ?_⟩
    rcases step with ⟨up, further⟩ | ⟨down, short, held, further⟩
    · exact .inl ⟨up, ih further⟩
    · refine .inr ⟨down, short, ?_, ih further⟩
      rcases overlaid.each (place ++ [s]) with same | ⟨new, _, content, file⟩
      · rwa [← same]
      · cases rest with
        | nil =>
          cases further
          exact absurd new old
        | cons next rest =>
          obtain ⟨directory, _⟩ := walk_cons_ok.mp further
          rw [is_directory_iff, file] at directory
          cases directory

theorem set (overlaid : Overlays fresh t t') {q : List String} (new : fresh q) (present : q ≠ [])
    (free : ¬ t.isDirectory q = true) (content : List UInt8) :
    Overlays fresh t (t'.set q (.file content)) := by
  refine ⟨overlaid.working, fun place => ?_⟩
  by_cases same : place = q
  · subst same
    exact .inr ⟨new, fun held => free (is_directory_iff.mpr held), content, get_set_self present⟩
  · rw [get_set_other same]
    exact overlaid.each place

end Overlays

end Overlays

section Reading

variable {fresh : List String → Prop} {p directory : FilePath} {content : List UInt8} {text : String}
  {ps : List FilePath}

theorem read_bytes_ok : t.readBytes p = .ok content ↔
    ∃ place, t.locate p = .ok place ∧ t.get? place = some (.file content) := by
  unfold readBytes
  cases t.locate p with
  | error fault => simp
  | ok place => cases held : t.get? place with
    | none => simp [held]
    | some entry => cases entry <;> simp [held]

theorem locate_last (present : p.segments ≠ []) (down : p.name ≠ "..") (located : t.locate p = .ok reached) :
    reached.getLast? = some p.name := by
  obtain ⟨s, last⟩ := Option.ne_none_iff_exists'.mp (mt List.getLast?_eq_none_iff.mp present)
  obtain ⟨init, split⟩ := List.getLast?_eq_some_iff.mp last
  have name : p.name = s := by rw [FilePath.name, last]; rfl
  have walked := (locate_ok.mp located).2
  rw [split, walk_append] at walked
  cases front : t.walk (t.origin p) init with
  | error fault =>
    rw [front] at walked
    cases walked
  | ok place =>
    rw [front] at walked
    obtain ⟨_, ⟨up, _⟩ | ⟨_, _, _, further⟩⟩ := walk_cons_ok.mp walked
    · exact absurd (name.trans up) down
    · cases further
      rw [name, List.getLast?_concat]

theorem Overlays.read_bytes (overlaid : Overlays fresh t t') (present : p.segments ≠ []) (down : p.name ≠ "..")
    (old : ∀ place, place.getLast? = some p.name → ¬ fresh place) :
    t'.readBytes p = .ok content ↔ t.readBytes p = .ok content := by
  have same : ∀ {place}, place.getLast? = some p.name → t'.get? place = t.get? place := fun last =>
    (overlaid.each _).resolve_right fun ⟨new, _⟩ => old _ last new
  rw [read_bytes_ok, read_bytes_ok]
  constructor
  · rintro ⟨place, located, held⟩
    have last := locate_last present down located
    refine ⟨place, ?_, same last ▸ held⟩
    obtain ⟨short, walked⟩ := locate_ok.mp located
    exact locate_ok.mpr ⟨short, origin_eq overlaid.working p ▸ overlaid.walk (old place last) walked⟩
  · rintro ⟨place, located, held⟩
    exact ⟨place, overlaid.locate located, (same (locate_last present down located)).trans held⟩

namespace Grows

theorem file_before (grows : Grows ps t t') (held : t'.get? place = some (.file content)) :
    t.get? place = some (.file content) := by
  rcases grows.each place with same | ⟨_, made, _⟩
  · rw [← same, held]
  · rw [held] at made
    cases made

theorem read_kept (grows : Grows ps t t') (read : t.readBytes p = .ok content) :
    t'.readBytes p = .ok content := by
  obtain ⟨place, located, held⟩ := read_bytes_ok.mp read
  exact read_bytes_ok.mpr ⟨place, grows.locate located, grows.kept held⟩

/-- Paths that led somewhere, and paths on plain ways, lead to no other file than before the directories
were made. -/
theorem read_bytes (grows : Grows ps t t') (proper : t.Proper)
    (way : ".." ∉ p.segments ∨ ∃ place, t.locate p = .ok place) :
    t'.readBytes p = .ok content ↔ t.readBytes p = .ok content := by
  refine ⟨fun read => ?_, grows.read_kept⟩
  obtain ⟨place, located, held⟩ := read_bytes_ok.mp read
  have file := grows.file_before held
  refine read_bytes_ok.mpr ⟨place, ?_, file⟩
  rcases way with plain | ⟨before, known⟩
  · obtain ⟨short, walked⟩ := locate_ok.mp located
    obtain rfl := walk_plain plain walked
    refine locate_ok.mpr ⟨short, ?_⟩
    rw [origin_eq grows.working] at file ⊢
    exact proper.walk plain (walk_short plain walked) (by rw [file]; rfl)
  · cases located.symm.trans (grows.locate known)
    exact known

end Grows

theorem read_text_congr (same : ∀ content, t'.readBytes p = .ok content ↔ t.readBytes p = .ok content) :
    t'.readText p = .ok text ↔ t.readText p = .ok text := by
  have ok : ∀ t : FileTree, t.readText p = .ok text ↔ hasNull p = false ∧ ∃ content decoded,
      t.readBytes p = .ok content ∧ String.fromUTF8? ⟨content.toArray⟩ = some decoded ∧
        .ofList (unifyLineEnds decoded.toList) = text := by
    intro t
    unfold readText
    cases hasNull p with
    | true => simp
    | false =>
      cases read : t.readBytes p with
      | error fault => simp
      | ok content => cases decodes : String.fromUTF8? ⟨content.toArray⟩ <;> simp [decodes]
  simp only [ok, same]

end Reading

section Files

variable {p directory : FilePath} {name text : String}

theorem write_text_ok : t.writeText p text = .ok t' ↔ hasNull p = false ∧ ∃ place, t.target p = .ok place ∧
    ¬ t.isDirectory place = true ∧ t.set place (.file text.toUTF8.data.toList) = t' := by
  unfold writeText
  cases hasNull p with
  | true => simp
  | false =>
    cases t.target p with
    | error fault => simp
    | ok place => by_cases directory : t.isDirectory place = true <;> simp [directory]

theorem target_below (ready : Ready t directory place) (down : name ≠ "..") :
    t.target (directory.join ⟨0, [name]⟩) = .ok reached ↔
      ¬ 4095 < (directory.join ⟨0, [name]⟩).text.utf8ByteSize ∧ name.utf8ByteSize ≤ 255 ∧
        reached = place ++ [name] := by
  set p := directory.join ⟨0, [name]⟩
  have segments : p.segments = directory.segments ++ [name] := rfl
  have start : t.origin p = t.origin directory := rfl
  have parent : p.parent = directory := directory.parent_below name
  have last : p.name = name := by rw [FilePath.name, segments, List.getLast?_concat]; rfl
  have directory := ready.is_directory
  have step : t.locate p = if 4095 < p.text.utf8ByteSize then .error .nameTooLong
      else if 255 < name.utf8ByteSize then .error .nameTooLong
      else if (t.get? (place ++ [name])).isNone then .error .notFound else .ok (place ++ [name]) := by
    change (if _ then _ else t.walk (t.origin p) p.segments) = _
    rw [segments, walk_append, start, (locate_ok.mp ready.located).2]
    change (if _ then _ else t.walk place [name]) = _
    rw [walk, if_neg (not_not.mpr directory), if_neg down]
    rfl
  unfold target
  rw [step, parent, ready.located]
  by_cases long : 4095 < p.text.utf8ByteSize
  · simp [long]
  · by_cases wide : 255 < name.utf8ByteSize
    · simp [long, wide, Nat.not_le.mpr wide]
    · have fits : name.utf8ByteSize ≤ 255 := Nat.le_of_not_lt wide
      cases held : t.get? (place ++ [name]) <;> simp [long, wide, fits, last, directory, eq_comm]

end Files

end FileTree

end ApiSchema
