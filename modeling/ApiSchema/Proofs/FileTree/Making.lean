import ApiSchema.Proofs.FileTree.Unread
import Mathlib.Data.List.Induction

/-! What the making of directories changes of a tree. It puts directories where there was nothing, so that
every way that led somewhere still leads there. -/

namespace ApiSchema.FileTree

variable {t t' t'' : FileTree} {place reached q : List String} {segments : List String} {entry : FileEntry}

section Entries

theorem get_set_self (present : q ≠ []) : (t.set q entry).get? q = some entry := by
  unfold get? set
  rw [if_neg (by simpa using present)]
  exact List.lookup_cons_self

theorem lookup_filter_other {entries : List (List String × FileEntry)} (other : place ≠ q) :
    (entries.filter (·.1 != q)).lookup place = entries.lookup place := by
  induction entries with
  | nil => rfl
  | cons e rest ih =>
    obtain ⟨spot, held⟩ := e
    by_cases same : spot = q
    · rw [List.filter_cons_of_neg (by simpa using same), ih, List.lookup_cons,
        show (place == spot) = false by simpa [same] using other]
    · rw [List.filter_cons_of_pos (by simpa using same), List.lookup_cons, List.lookup_cons, ih]

theorem get_set_other (other : place ≠ q) : (t.set q entry).get? place = t.get? place := by
  unfold get? set
  split
  · rfl
  · rw [List.lookup_cons, show (place == q) = false by simpa using other]
    exact lookup_filter_other other

theorem is_directory_iff : t.isDirectory place = true ↔ t.get? place = some .directory := by
  simp [isDirectory]

theorem set_kept (absent : t.get? q = none) {e : FileEntry} (held : t.get? place = some e) :
    (t.set q entry).get? place = some e := by
  rw [← held]
  refine get_set_other ?_
  rintro rfl
  rw [absent] at held
  cases held

theorem set_directories (absent : t.get? q = none) (place : List String) (directory : t.isDirectory place = true) :
    (t.set q entry).isDirectory place = true :=
  is_directory_iff.mpr (set_kept absent (is_directory_iff.mp directory))

theorem set_present (absent : t.get? q = none) (place : List String) (held : (t.get? place).isSome = true) :
    ((t.set q entry).get? place).isSome = true := by
  obtain ⟨e, held⟩ := Option.isSome_iff_exists.mp held
  rw [set_kept absent held]
  rfl

end Entries

section Walks

theorem walk_cons_ok {s : String} : t.walk place (s :: segments) = .ok reached ↔
    t.isDirectory place = true ∧
      ((s = ".." ∧ t.walk place.dropLast segments = .ok reached) ∨
        (s ≠ ".." ∧ s.utf8ByteSize ≤ 255 ∧ (t.get? (place ++ [s])).isSome = true ∧
          t.walk (place ++ [s]) segments = .ok reached)) := by
  rw [walk]
  by_cases directory : t.isDirectory place = true
  · by_cases up : s = ".."
    · simp [directory, up]
    · by_cases long : 255 < s.utf8ByteSize
      · have short : ¬ s.utf8ByteSize ≤ 255 := by omega
        simp [directory, up, long, short]
      · have short : s.utf8ByteSize ≤ 255 := by omega
        cases held : t.get? (place ++ [s]) <;> simp [directory, up, long, short]
  · simp [directory]

theorem walk_append {first second : List String} :
    t.walk place (first ++ second) = (t.walk place first).bind (t.walk · second) := by
  induction first generalizing place with
  | nil => rfl
  | cons s rest ih =>
    rw [List.cons_append, walk, walk]
    split
    · rfl
    · split
      · exact ih
      · split
        · rfl
        · split
          · rfl
          · exact ih

theorem walk_mono (directories : ∀ p, t.isDirectory p = true → t'.isDirectory p = true)
    (kept : ∀ p, (t.get? p).isSome = true → (t'.get? p).isSome = true)
    (walked : t.walk place segments = .ok reached) : t'.walk place segments = .ok reached := by
  induction segments generalizing place with
  | nil => exact walked
  | cons s rest ih =>
    obtain ⟨directory, step⟩ := walk_cons_ok.mp walked
    refine walk_cons_ok.mpr ⟨directories _ directory, ?_⟩
    rcases step with ⟨up, further⟩ | ⟨down, short, held, further⟩
    · exact .inl ⟨up, ih further⟩
    · exact .inr ⟨down, short, kept _ held, ih further⟩

end Walks

/-- Each entry stands in a directory. -/
def Proper (t : FileTree) : Prop :=
  ∀ place s, (t.get? (place ++ [s])).isSome = true → t.isDirectory place = true

theorem proper_of_entries (each : ∀ e ∈ t.entries, t.isDirectory e.1.dropLast = true) : t.Proper := by
  intro place s held
  obtain ⟨entry, held⟩ := Option.isSome_iff_exists.mp held
  unfold get? at held
  rw [if_neg (by simp)] at held
  obtain ⟨before, after, split, _⟩ := List.lookup_eq_some_iff.mp held
  have own := each (place ++ [s], entry) (split ▸ List.mem_append_right _ (List.mem_cons_self ..))
  rwa [List.dropLast_concat] at own

theorem Proper.above (proper : t.Proper) (held : (t.get? (place ++ segments)).isSome = true)
    (present : segments ≠ []) : t.isDirectory place = true := by
  induction segments using List.reverseRecOn with
  | nil => exact absurd rfl present
  | append_singleton segments s ih =>
    rw [← List.append_assoc] at held
    have directory := proper _ _ held
    by_cases none : segments = []
    · rwa [none, List.append_nil] at directory
    · exact ih (by rw [is_directory_iff.mp directory]; rfl) none

/-- Where something stands, the plain way leads to it. -/
theorem Proper.walk (proper : t.Proper) (plain : ".." ∉ segments)
    (short : ∀ s ∈ segments, s.utf8ByteSize ≤ 255) (held : (t.get? (place ++ segments)).isSome = true) :
    t.walk place segments = .ok (place ++ segments) := by
  induction segments generalizing place with
  | nil => exact congrArg Except.ok (List.append_nil _).symm
  | cons s rest ih =>
    have directory := proper.above held (List.cons_ne_nil s rest)
    have further : place ++ s :: rest = (place ++ [s]) ++ rest := by rw [List.append_assoc]; rfl
    rw [further] at held ⊢
    obtain ⟨down, plain⟩ := not_or.mp (mt List.mem_cons.mpr plain)
    obtain ⟨own, short⟩ := List.forall_mem_cons.mp short
    refine walk_cons_ok.mpr ⟨directory, .inr ⟨fun same => down same.symm, own, ?_, ih plain short held⟩⟩
    by_cases last : rest = []
    · rwa [last, List.append_nil] at held
    · rw [is_directory_iff.mp (proper.above held last)]
      rfl

theorem walk_short (plain : ".." ∉ segments) (walked : t.walk place segments = .ok reached) :
    ∀ s ∈ segments, s.utf8ByteSize ≤ 255 := by
  induction segments generalizing place with
  | nil => exact nofun
  | cons s rest ih =>
    obtain ⟨down, plain⟩ := not_or.mp (mt List.mem_cons.mpr plain)
    obtain ⟨_, ⟨up, _⟩ | ⟨_, short, _, further⟩⟩ := walk_cons_ok.mp walked
    · exact absurd up.symm down
    · exact List.forall_mem_cons.mpr ⟨short, ih plain further⟩

section Making

/-- From where the segments of a path are followed. -/
def origin (t : FileTree) (p : FilePath) : List String := if p.isAbsolute then [] else t.workingDirectory

theorem origin_eq (working : t'.workingDirectory = t.workingDirectory) (p : FilePath) :
    t'.origin p = t.origin p := by
  unfold origin
  rw [working]

theorem locate_ok {p : FilePath} : t.locate p = .ok reached ↔
    ¬ 4095 < p.text.utf8ByteSize ∧ t.walk (t.origin p) p.segments = .ok reached := by
  unfold locate
  split
  · next long => exact ⟨nofun, fun both => absurd long both.1⟩
  · next short => exact (and_iff_right short).symm

/-- Where there was nothing, there may be a directory now: one of these paths leads there. -/
structure Grows (ps : List FilePath) (t t' : FileTree) : Prop where
  working : t'.workingDirectory = t.workingDirectory
  each : ∀ place, t'.get? place = t.get? place ∨
    (t.get? place = none ∧ t'.get? place = some .directory ∧ ∃ p ∈ ps, t'.locate p = .ok place)

variable {ps ps' : List FilePath} {p : FilePath}

theorem locate_mono (working : t'.workingDirectory = t.workingDirectory)
    (directories : ∀ p, t.isDirectory p = true → t'.isDirectory p = true)
    (kept : ∀ p, (t.get? p).isSome = true → (t'.get? p).isSome = true)
    (located : t.locate p = .ok reached) : t'.locate p = .ok reached := by
  obtain ⟨short, walked⟩ := locate_ok.mp located
  exact locate_ok.mpr ⟨short, origin_eq working p ▸ walk_mono directories kept walked⟩

namespace Grows

theorem refl (ps : List FilePath) (t : FileTree) : Grows ps t t := ⟨rfl, fun _ => .inl rfl⟩

theorem kept (grows : Grows ps t t') {p : List String} {e : FileEntry} (held : t.get? p = some e) :
    t'.get? p = some e := by
  rcases grows.each p with same | ⟨none, _⟩
  · rw [same, held]
  · rw [held] at none
    cases none

theorem directories (grows : Grows ps t t') (p : List String) (directory : t.isDirectory p = true) :
    t'.isDirectory p = true :=
  is_directory_iff.mpr (grows.kept (is_directory_iff.mp directory))

theorem present (grows : Grows ps t t') (p : List String) (held : (t.get? p).isSome = true) :
    (t'.get? p).isSome = true := by
  obtain ⟨e, held⟩ := Option.isSome_iff_exists.mp held
  rw [grows.kept held]
  rfl

theorem locate (grows : Grows ps t t') (located : t.locate p = .ok reached) : t'.locate p = .ok reached :=
  locate_mono grows.working grows.directories grows.present located

theorem trans (first : Grows ps t t') (second : Grows ps' t' t'') : Grows (ps ++ ps') t t'' := by
  refine ⟨second.working.trans first.working, fun place => ?_⟩
  rcases first.each place with same | ⟨none, made, p, listed, located⟩
  · rcases second.each place with same' | ⟨none, made, p, listed, located⟩
    · exact .inl (same'.trans same)
    · exact .inr ⟨same ▸ none, made, p, List.mem_append_right _ listed, located⟩
  · exact .inr ⟨none, second.kept made, p, List.mem_append_left _ listed, second.locate located⟩

end Grows

theorem walk_not_found {s : String} (directory : t.isDirectory place = true)
    (failed : t.walk place [s] = .error .notFound) :
    s ≠ ".." ∧ s.utf8ByteSize ≤ 255 ∧ t.get? (place ++ [s]) = none := by
  rw [walk, if_neg (by simp [directory])] at failed
  split at failed
  · cases failed
  · next down =>
    split at failed
    · cases failed
    · next short =>
      split at failed
      · next absent => exact ⟨down, Nat.le_of_not_lt short, Option.isNone_iff_eq_none.mp absent⟩
      · cases failed

theorem locate_not_found (failed : t.locate p = .error .notFound) :
    ¬ 4095 < p.text.utf8ByteSize ∧
      t.walk (t.origin p) p.segments = .error .notFound := by
  unfold locate at failed
  split at failed
  · cases failed
  · next short => exact ⟨short, failed⟩

theorem grows_set {parent : List String} (short : ¬ 4095 < p.text.utf8ByteSize)
    (failed : t.walk (t.origin p) p.segments = .error .notFound)
    (above : t.walk (t.origin p) p.segments.dropLast = .ok parent)
    (directory : t.isDirectory parent = true) :
    Grows [p] t (t.set (parent ++ [p.name]) .directory) ∧
      ∃ place, (t.set (parent ++ [p.name]) .directory).locate p = .ok place ∧
        (t.set (parent ++ [p.name]) .directory).isDirectory place = true := by
  obtain ⟨s, last⟩ : ∃ s, p.segments.getLast? = some s := by
    refine Option.ne_none_iff_exists'.mp fun none => ?_
    rw [List.getLast?_eq_none_iff.mp none] at failed
    cases failed
  obtain ⟨init, split⟩ := List.getLast?_eq_some_iff.mp last
  have name : p.name = s := by rw [FilePath.name, last]; rfl
  rw [split, List.dropLast_concat] at above
  rw [split, walk_append, above] at failed
  obtain ⟨down, fits, absent⟩ := walk_not_found directory failed
  rw [name]
  have present : parent ++ [s] ≠ [] := by simp
  have new : (t.set (parent ++ [s]) .directory).get? (parent ++ [s]) = some .directory := get_set_self present
  have located : (t.set (parent ++ [s]) .directory).locate p = .ok (parent ++ [s]) := by
    have front : (t.set (parent ++ [s]) .directory).walk (t.origin p) init = .ok parent :=
      walk_mono (set_directories absent) (set_present absent) above
    refine locate_ok.mpr ⟨short, ?_⟩
    change (t.set (parent ++ [s]) .directory).walk (t.origin p) p.segments = _
    rw [split, walk_append, front]
    exact walk_cons_ok.mpr ⟨set_directories absent _ directory,
      .inr ⟨down, fits, by rw [new]; rfl, rfl⟩⟩
  refine ⟨⟨rfl, fun place => ?_⟩, _, located, is_directory_iff.mpr new⟩
  by_cases same : place = parent ++ [s]
  · subst same
    exact .inr ⟨absent, new, p, List.mem_singleton_self p, located⟩
  · exact .inl (get_set_other same)

theorem make_directory_ok (made : t.makeDirectory p = .ok t') :
    Grows [p] t t' ∧ ∃ place, t'.locate p = .ok place ∧ t'.isDirectory place = true := by
  unfold makeDirectory at made
  cases located : t.locate p with
  | ok place =>
    rw [located] at made
    dsimp only at made
    split at made
    · next directory =>
      cases made
      exact ⟨.refl _ _, place, located, directory⟩
    · cases made
  | error fault =>
    rw [located] at made
    cases fault with
    | notFound =>
      obtain ⟨short, failed⟩ := locate_not_found located
      unfold target at made
      rw [located] at made
      cases above : t.locate p.parent with
      | error fault =>
        rw [above] at made
        cases made
      | ok parent =>
        rw [above] at made
        dsimp only at made
        by_cases directory : t.isDirectory parent = true
        · rw [if_pos directory] at made
          cases made
          exact grows_set short failed (locate_ok.mp above).2 directory
        · rw [if_neg directory] at made
          cases made
    | _ => cases made

theorem make_each_ok (made : t.makeEach ps = (t', .ok ())) :
    Grows ps t t' ∧ ∀ p ∈ ps, ∃ place, t'.locate p = .ok place ∧ t'.isDirectory place = true := by
  induction ps generalizing t with
  | nil =>
    cases made
    exact ⟨.refl _ _, nofun⟩
  | cons p rest ih =>
    rw [makeEach] at made
    cases first : t.makeDirectory p with
    | error e =>
      rw [first] at made
      cases made
    | ok between =>
      rw [first] at made
      obtain ⟨grows, place, located, directory⟩ := make_directory_ok first
      obtain ⟨further, others⟩ := ih made
      exact ⟨grows.trans further, List.forall_mem_cons.mpr
        ⟨⟨place, further.locate located, further.directories _ directory⟩, others⟩⟩

theorem make_each_made (made : ∀ p ∈ ps, ∃ place, t.locate p = .ok place ∧ t.isDirectory place = true) :
    t.makeEach ps = (t, .ok ()) := by
  induction ps with
  | nil => rfl
  | cons p rest ih =>
    obtain ⟨⟨place, located, directory⟩, others⟩ := List.forall_mem_cons.mp made
    have first : t.makeDirectory p = .ok t := by
      unfold makeDirectory
      rw [located]
      exact if_pos directory
    rw [makeEach, first]
    exact ih others

/-- The directory and those above it are there, the directory itself at this place. -/
structure Ready (t : FileTree) (directory : FilePath) (place : List String) : Prop where
  named : hasNull directory = false
  short : ¬ 4095 < directory.text.utf8ByteSize
  above : ∀ p ∈ directory.parents.reverse ++ [directory],
    ∃ place, t.locate p = .ok place ∧ t.isDirectory place = true
  located : t.locate directory = .ok place

variable {directory : FilePath}

theorem Ready.make (ready : Ready t directory place) : t.makeDirectories directory = (t, .ok ()) := by
  unfold makeDirectories
  rw [if_neg (by rw [ready.named]; exact Bool.false_ne_true), if_neg ready.short,
    make_each_made ready.above]
  rfl

theorem Ready.is_directory (ready : Ready t directory place) : t.isDirectory place = true := by
  obtain ⟨place', located, directory⟩ := ready.above _ (List.mem_append_right _ (List.mem_singleton_self _))
  cases located.symm.trans ready.located
  exact directory

theorem ready_of_make (made : t.makeDirectories directory = (t', .ok ())) :
    Grows (directory.parents.reverse ++ [directory]) t t' ∧ ∃ place, Ready t' directory place := by
  unfold makeDirectories at made
  split at made
  · cases made
  · next named =>
    split at made
    · cases made
    · next short =>
      cases each : t.makeEach (directory.parents.reverse ++ [directory]) with
      | mk after outcome =>
        rw [each] at made
        cases outcome with
        | error e => cases made
        | ok =>
          cases made
          obtain ⟨grows, above⟩ := make_each_ok each
          obtain ⟨place, located, _⟩ := above _ (List.mem_append_right _ (List.mem_singleton_self _))
          exact ⟨grows, place, Bool.eq_false_iff.mpr named, short, above, located⟩

end Making

end ApiSchema.FileTree
