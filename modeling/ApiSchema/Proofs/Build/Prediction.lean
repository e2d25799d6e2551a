import ApiSchema.CommandLine.Commands
import ApiSchema.Proofs.Build.Prefix

/-! How far the check of a project tells what its build will come to. The check compiles each file as it
is, while the build goes on among the artifacts that it has put down; these are no sources themselves. -/

namespace ApiSchema

namespace Build

open FileTree (Overlays Ready)

variable {tree made t : FileTree} {directory : FilePath} {dir place : List String} {placed : List (List String)}
  {files : List FilePath} {file : FilePath} {s s' : Schema} {text : String} {compiled : List (FilePath × Schema)}

section Artifacts

theorem artifact_braced (artifact : Artifact.write s = .ok text) : ∃ rest, text.toList = '\x7b' :: rest := by
  unfold Artifact.write at artifact
  split at artifact
  · cases artifact
  · next document _ =>
    split at artifact
    · next written held =>
      cases artifact
      obtain ⟨body, _, rfl⟩ := Option.map_eq_some_iff.mp held
      refine ⟨(body ++ "\x7d").toList, ?_⟩
      rw [String.append_assoc, String.toList_append]
      rfl
    · cases artifact

theorem braced_stream (name : String) {source : String} {rest : List Char} (braced : source.toList = '\x7b' :: rest) :
    ∃ later, TokenStream.ofSource name source = .ok ⟨.mark .leftBrace, ⟨name, .start⟩⟩ :: later := by
  unfold TokenStream.ofSource Cursor.ofSource
  rw [braced]
  exact ⟨_, rfl⟩

theorem braced_not_parsed {name source : String} {rest : List Char} (braced : source.toList = '\x7b' :: rest)
    (parsed : SchemaTree) : SchemaTree.parse tree name source ≠ .ok parsed := by
  intro parses
  obtain ⟨_, ts, ps, lexed, pieces, _⟩ := Grammar.parse_iff_pieces.mp parses
  obtain ⟨later, stream⟩ := braced_stream name braced
  rw [Parser.stream_of_tokens lexed] at stream
  obtain ⟨t, others, rfl, first, _⟩ := List.map_eq_cons_iff.mp stream
  cases first
  have begins := pieces.begins
  rw [Grammar.map_tokens_of] at begins
  exact begins.lacks .leftBrace _ rfl rfl

theorem text_of_bytes {decoded : String}
    (decodes : String.fromUTF8? ⟨text.toUTF8.data.toList.toArray⟩ = some decoded) : decoded = text := by
  have encoded : String.fromUTF8? text.toUTF8 = some decoded := by simpa using decodes
  unfold String.fromUTF8? at encoded
  split at encoded
  · cases encoded
    rfl
  · cases encoded

theorem artifact_not_compiled (located : t.locate file = .ok place) (artifact : Artifact.write s' = .ok text)
    (held : t.get? place = some (.file text.toUTF8.data.toList)) : compile t file ≠ .ok s := by
  intro compiled
  obtain ⟨source, parsed, read, parses, _⟩ := compile_ok.mp compiled
  obtain ⟨rest, braced⟩ := artifact_braced artifact
  have again : source.toList = '\x7b' :: FileTree.unifyLineEnds rest := by
    unfold FileTree.readText FileTree.readBytes at read
    rw [located] at read
    dsimp only at read
    rw [held] at read
    dsimp only at read
    split at read
    · cases read
    · split at read
      · next decoded decodes =>
        cases read
        rw [text_of_bytes decodes, String.toList_ofList, braced]
        rfl
      · cases read
  exact braced_not_parsed again parsed parses

theorem located_of_compile (compiled : compile t file = .ok s) : ∃ place, t.locate file = .ok place := by
  obtain ⟨_, _, read, _⟩ := compile_ok.mp compiled
  unfold FileTree.readText FileTree.readBytes at read
  cases located : t.locate file with
  | ok place => exact ⟨place, rfl⟩
  | error fault =>
    rw [located] at read
    split at read <;> cases read

end Artifacts

section Filling

/-- Artifacts stand at some places of their own, where there was no directory. -/
structure Filled (placed : List (List String)) (made t : FileTree) : Prop where
  working : t.workingDirectory = made.workingDirectory
  artifacts : ∀ place ∈ placed, ArtifactPlace place ∧ made.get? place ≠ some .directory ∧
    ∃ s text, Artifact.write s = .ok text ∧ t.get? place = some (.file text.toUTF8.data.toList)
  others : ∀ place, place ∉ placed → t.get? place = made.get? place

namespace Filled

theorem none (made : FileTree) : Filled [] made made := ⟨rfl, nofun, fun _ _ => rfl⟩

theorem overlaid {fresh : List String → Prop} (filled : Filled placed made t)
    (new : ∀ place ∈ placed, ArtifactPlace place → fresh place) : Overlays fresh made t := by
  refine ⟨filled.working, fun place => ?_⟩
  by_cases put : place ∈ placed
  · obtain ⟨artifact, free, s, text, _, held⟩ := filled.artifacts place put
    exact .inr ⟨new place put artifact, free, _, held⟩
  · exact .inl (filled.others place put)

theorem overlays (filled : Filled placed made t) : Overlays ArtifactPlace made t :=
  filled.overlaid fun _ _ artifact => artifact

theorem fresh (filled : Filled placed made t) : Overlays (· ∈ placed) made t := filled.overlaid fun _ put _ => put

theorem put (filled : Filled placed made t) (artifact : ArtifactPlace place) (free : ¬ made.isDirectory place = true)
    (written : Artifact.write s = .ok text) :
    Filled (place :: placed) made (t.set place (.file text.toUTF8.data.toList)) := by
  have present : place ≠ [] := by
    rintro rfl
    obtain ⟨name, last, _⟩ := artifact
    cases last
  refine ⟨filled.working, fun other put => ?_, fun other elsewhere => ?_⟩
  · by_cases same : other = place
    · subst same
      exact ⟨artifact, mt FileTree.is_directory_iff.mpr free, s, text, written, FileTree.get_set_self present⟩
    · obtain ⟨artifact, free, s, text, written, held⟩ :=
        filled.artifacts other ((List.mem_cons.mp put).resolve_left same)
      exact ⟨artifact, free, s, text, written, (FileTree.get_set_other same).trans held⟩
  · obtain ⟨other, old⟩ := not_or.mp (mt List.mem_cons.mpr elsewhere)
    exact (FileTree.get_set_other other).trans (filled.others _ old)

theorem locate_iff (filled : Filled placed made t) (clear : place ∉ placed) :
    t.locate file = .ok place ↔ made.locate file = .ok place := by
  refine ⟨fun located => ?_, filled.overlays.locate⟩
  obtain ⟨short, walked⟩ := FileTree.locate_ok.mp located
  rw [FileTree.origin_eq filled.working] at walked
  exact FileTree.locate_ok.mpr ⟨short, filled.fresh.walk clear walked⟩

theorem read_text (filled : Filled placed made t) (clear : place ∉ placed) (located : made.locate file = .ok place) :
    t.readText file = made.readText file := by
  unfold FileTree.readText FileTree.readBytes
  rw [(filled.locate_iff clear).mpr located, located]
  dsimp only
  rw [filled.others place clear]

/-- Among artifacts the same files are compiled as without them, but for those in whose place one stands. -/
theorem compile_iff (filled : Filled placed made t) :
    compile t file = .ok s ↔ compile made file = .ok s ∧ ∀ place ∈ placed, made.locate file ≠ .ok place := by
  obtain ⟨back, forth⟩ := supplies_overlaid filled.overlays
  constructor
  · intro compiled
    obtain ⟨place, located⟩ := located_of_compile compiled
    -- What stands there now is no artifact, because it has been compiled.
    have clear : place ∉ placed := by
      intro put
      obtain ⟨_, _, s', text, artifact, held⟩ := filled.artifacts place put
      exact artifact_not_compiled located artifact held compiled
    have before := (filled.locate_iff clear).mp located
    refine ⟨compile_supplied back (fun content read => filled.read_text clear before ▸ read) compiled, ?_⟩
    intro other put located'
    cases before.symm.trans located'
    exact clear put
  · rintro ⟨compiled, clear⟩
    obtain ⟨place, located⟩ := located_of_compile compiled
    have apart : place ∉ placed := fun put => clear place put located
    exact compile_supplied forth (fun content read => (filled.read_text apart located).trans read) compiled

end Filled

end Filling

section Loop

theorem map_cons_ok {e : FilePath × Schema} {outcome : Except BuildFailure (List (FilePath × Schema))} :
    outcome.map (e :: ·) = .ok compiled ↔ ∃ others, outcome = .ok others ∧ compiled = e :: others := by
  cases outcome with
  | error fault => simp [Except.map]
  | ok others => simp [Except.map, eq_comm]

/-- With the directory there, all files are compiled if each of them could be, and none of them stands in
the place of an artifact that is put down before it. -/
theorem compile_each_ok (ready : Ready made directory dir) (filled : Filled placed made t)
    (takes : ∀ file ∈ files, Takes made directory file) :
    (compileEach directory t files).2 = .ok compiled ↔
      compiled.map (·.1) = files ∧ (∀ e ∈ compiled, compile made e.1 = .ok e.2) ∧
        (∀ file ∈ files, ∀ place ∈ placed, made.locate file ≠ .ok place) ∧
        files.Pairwise fun file later => made.locate later ≠ .ok (dir ++ [artifactName file]) := by
  -- The artifact of the first file joins those that the others are compiled among.
  induction files generalizing t placed compiled with
  | nil =>
    rw [compileEach, List.map_eq_nil_iff]
    constructor
    · intro done
      cases done
      exact ⟨rfl, by simp, by simp, .nil⟩
    · rintro ⟨rfl, _⟩
      rfl
  | cons file rest ih =>
    obtain ⟨own, behind⟩ := List.forall_mem_cons.mp takes
    rw [compileEach]
    cases outcome : compile t file with
    | error e =>
      constructor
      · intro done
        cases done
      · rintro ⟨split, each, clear, _⟩
        obtain ⟨⟨_, s⟩, others, rfl, rfl, _⟩ := List.map_eq_cons_iff.mp split
        have again := filled.compile_iff.mpr ⟨each _ (List.mem_cons_self ..), clear _ (List.mem_cons_self ..)⟩
        cases outcome.symm.trans again
    | ok s =>
      obtain ⟨here, clear⟩ := filled.compile_iff.mp outcome
      obtain ⟨text, artifact⟩ := artifact_of_compile outcome
      obtain ⟨free, stored⟩ := store_ok ready filled.overlays own (named_of_compile outcome) artifact
      have again := filled.put (artifact_place dir file) free artifact
      rw [artifactPath] at stored
      dsimp only
      rw [stored]
      dsimp only
      rw [map_cons_ok]
      constructor
      · rintro ⟨others, done, rfl⟩
        obtain ⟨split, each, elsewhere, apart⟩ := (ih again behind).mp done
        have both := fun later listed => List.forall_mem_cons.mp (elsewhere later listed)
        exact ⟨congrArg (file :: ·) split, List.forall_mem_cons.mpr ⟨here, each⟩,
          List.forall_mem_cons.mpr ⟨clear, fun later listed => (both later listed).2⟩,
          .cons (fun later listed => (both later listed).1) apart⟩
      · rintro ⟨whole, every, elsewhere, pairs⟩
        obtain ⟨⟨_, s'⟩, others, rfl, rfl, split⟩ := List.map_eq_cons_iff.mp whole
        obtain ⟨same, each⟩ := List.forall_mem_cons.mp every
        cases here.symm.trans same
        obtain ⟨first, apart⟩ := List.pairwise_cons.mp pairs
        have others_clear := (List.forall_mem_cons.mp elsewhere).2
        exact ⟨others, (ih again behind).mpr ⟨split, each,
          fun later listed => List.forall_mem_cons.mpr ⟨first later listed, others_clear later listed⟩, apart⟩, rfl⟩

end Loop

section Run

/-- The artifact of the first file is put in the place of the second one. -/
def Displaces (tree : FileTree) (directory file later : FilePath) : Prop :=
  ∃ place, tree.locate later = .ok place ∧
    (tree.makeDirectories directory).1.target (artifactPath directory file) = .ok place

instance (tree : FileTree) (directory file later : FilePath) : Decidable (Displaces tree directory file later) :=
  decidable_of_iff ((tree.locate later).toOption.any fun place => decide
      (((tree.makeDirectories directory).1.target (artifactPath directory file)).toOption = some place)) <| by
    unfold Displaces
    cases tree.locate later <;>
      cases (tree.makeDirectories directory).1.target (artifactPath directory file) <;>
        simp [Except.toOption]

/-- No two files share an artifact, and none stands where that of an earlier one is put. -/
structure Apart (tree : FileTree) (directory : FilePath) (files : List FilePath) : Prop where
  stems : ∀ file ∈ files, ∀ other ∈ files, file.stem = other.stem → file = other
  places : files.eraseDups.Pairwise fun file later => ¬ Displaces tree directory file later

/-- No way that goes up leads somewhere only when the directory has been made. -/
def Straight (tree : FileTree) (directory : FilePath) (files : List FilePath) : Prop :=
  ∀ file ∈ files, ".." ∉ file.segments ∨
    ((∃ place, (tree.makeDirectories directory).1.locate file = .ok place) → ∃ place, tree.locate file = .ok place)

theorem displaces_iff {later : FilePath} (making : tree.makeDirectories directory = (made, .ok ()))
    (ready : Ready made directory dir) (takes : Takes made directory file) (named : FileTree.hasNull file = false)
    (located : tree.locate later = .ok place) :
    Displaces tree directory file later ↔ made.locate later = .ok (dir ++ [artifactName file]) := by
  obtain ⟨after, written⟩ := exists_of_is_ok (takes named)
  obtain ⟨_, _, target, _⟩ := FileTree.write_text_ok.mp written
  obtain ⟨_, _, rfl⟩ := (FileTree.target_below ready (artifact_name_proper file)).mp target
  obtain ⟨grows, _⟩ := FileTree.ready_of_make making
  unfold Displaces
  rw [making, located, grows.locate located]
  dsimp only
  rw [target]
  simp [eq_comm]

theorem displaced_iff (making : tree.makeDirectories directory = (made, .ok ())) (ready : Ready made directory dir)
    (takes : ∀ file ∈ files, Takes made directory file) (each : ∀ file ∈ files, ∃ s, compile tree file = .ok s) :
    files.Pairwise (fun file later => ¬ Displaces tree directory file later) ↔
      files.Pairwise fun file later => made.locate later ≠ .ok (dir ++ [artifactName file]) := by
  refine List.Pairwise.iff_of_mem fun {file later} listed listed' => not_congr ?_
  obtain ⟨s, compiled⟩ := each file listed
  obtain ⟨_, compiled'⟩ := each later listed'
  obtain ⟨place, located⟩ := located_of_compile compiled'
  exact displaces_iff making ready (takes file listed) (named_of_compile compiled) located

theorem exists_of_each (split : compiled.map (·.1) = files) (each : ∀ e ∈ compiled, compile t e.1 = .ok e.2) :
    ∀ file ∈ files, ∃ s, compile t file = .ok s := by
  rw [← split]
  intro file listed
  obtain ⟨e, member, rfl⟩ := List.mem_map.mp listed
  exact ⟨e.2, each e member⟩

theorem compile_each_made {rest : List FilePath} (making : tree.makeDirectories directory = (made, .ok ()))
    (ready : Ready made directory dir) (same : ∀ s, compile made file = .ok s ↔ compile tree file = .ok s) :
    (compileEach directory tree (file :: rest)).2 = .ok compiled ↔
      (compileEach directory made (file :: rest)).2 = .ok compiled := by
  rw [compileEach, compileEach]
  cases outcome : compile tree file with
  | ok s =>
    have stored : store tree (artifactPath directory file) s = store made (artifactPath directory file) s :=
      store_made making ready
    rw [artifactPath] at stored
    rw [(same s).mpr outcome]
    dsimp only
    rw [stored]
  | error e =>
    cases outcome' : compile made file with
    | error e' =>
      constructor <;>
      · intro done
        cases done
    | ok s => cases outcome.symm.trans ((same s).mp outcome')

theorem distinct_once (stems : ∀ file ∈ files, ∀ other ∈ files, file.stem = other.stem → file = other) :
    distinct [] files = .ok files.eraseDups := by
  rw [distinct_ok stems, List.filter_eq_self.mpr (by simp), List.nil_append]

theorem run_ok_iff (proper : tree.Proper) (writable : Writable tree directory files) (straight : Straight tree directory files) :
    (run tree files directory).2 = .ok compiled ↔
      Apart tree directory files ∧ compiled.map (·.1) = files.eraseDups ∧
        ∀ e ∈ compiled, compile tree e.1 = .ok e.2 := by
  obtain ⟨makes, takes⟩ := writable
  cases making : tree.makeDirectories directory with
  | mk made outcome =>
    rw [making] at makes takes
    obtain rfl : outcome = .ok () := makes
    obtain ⟨grows, dir, ready⟩ := FileTree.ready_of_make making
    have same : ∀ file ∈ files, ∀ s, compile made file = .ok s ↔ compile tree file = .ok s := by
      intro file listed s
      rw [Straight, making] at straight
      rcases straight file listed with plain | opened
      · exact compile_grown grows proper (.inl plain)
      · refine ⟨fun compiled => ?_, fun compiled => ?_⟩
        · exact (compile_grown grows proper (.inr (opened (located_of_compile compiled)))).mp compiled
        · exact (compile_grown grows proper (.inr (located_of_compile compiled))).mpr compiled
    unfold run
    cases taken : distinct [] files with
    | error e =>
      refine ⟨nofun, fun ⟨apart, _⟩ => ?_⟩
      cases taken.symm.trans (distinct_once apart.stems)
    | ok distinctFiles =>
      have stems := distinct_apart taken nofun
      obtain rfl : distinctFiles = files.eraseDups := Except.ok.inj (taken.symm.trans (distinct_once stems))
      have listed : ∀ file ∈ files.eraseDups, file ∈ files := fun file => List.mem_eraseDups.mp
      have made_first : (compileEach directory tree files.eraseDups).2 = .ok compiled ↔
          (compileEach directory made files.eraseDups).2 = .ok compiled := by
        cases first : files.eraseDups with
        | nil => rfl
        | cons file rest => exact compile_each_made making ready (same file (listed file (by simp [first])))
      dsimp only
      have fits : ∀ file ∈ files.eraseDups, Takes made directory file := fun file member =>
        takes file (listed file member)
      rw [made_first, compile_each_ok ready (.none made) fits]
      constructor
      · rintro ⟨split, each, _, places⟩
        have each : ∀ e ∈ compiled, compile tree e.1 = .ok e.2 := fun e member =>
          (same e.1 (listed e.1 (split ▸ List.mem_map_of_mem member)) e.2).mp (each e member)
        exact ⟨⟨stems, (displaced_iff making ready fits (exists_of_each split each)).mpr places⟩, split, each⟩
      · rintro ⟨⟨_, places⟩, split, each⟩
        refine ⟨split, fun e member => ?_, fun _ _ => nofun,
          (displaced_iff making ready fits (exists_of_each split each)).mp places⟩
        exact (same e.1 (listed e.1 (split ▸ List.mem_map_of_mem member)) e.2).mpr (each e member)

end Run

end Build

namespace CommandLine

open Build (Apart Straight Writable compile)

variable {tree : FileTree} {files : List FilePath} {schemaOf : FilePath → Schema} {text : String} {project : Project}

/-- A failure without a report ends a command as a reported error does. -/
def exitCode : Outcome → Nat
  | .ok report => report.exitCode
  | .error _ => 1

/-- What is told of files that are all compiled. -/
def checkReport (schemaOf : FilePath → Schema) (files : List FilePath) : Report :=
  if files.isEmpty then noSources
  else
    { printed := s!"Checking {files.length.repr} schema file(s)..." :: warningLines (files.map schemaOf) ++
        ["No issues found."] }

/-- What is told of files that are all built, each once. -/
def buildReport (schemaOf : FilePath → Schema) (files : List FilePath) (directory : FilePath) : Report :=
  let built := files.eraseDups
  if files.isEmpty then noSources
  else
    { printed := s!"Building {files.length.repr} schema file(s)..." :: warningLines (built.map schemaOf) ++
        [s!"Wrote {built.length.repr} artifact(s) to '{directory.text}'."] }

theorem interrupted_code (e : BuildFailure) (printed : List String) :
    exitCode ((Interruption.ofBuild e).outcome printed) = 1 := by
  cases e <;> rfl

section Checking

theorem compile_up_to_each (each : ∀ file ∈ files, compile tree file = .ok (schemaOf file)) :
    compileUpTo tree files = (files.map schemaOf, none) := by
  induction files with
  | nil => rfl
  | cons file rest ih =>
    obtain ⟨first, later⟩ := List.forall_mem_cons.mp each
    rw [compileUpTo, first]
    dsimp only
    rw [ih later]
    rfl

theorem compile_up_to_failed (failed : ¬ ∀ file ∈ files, ∃ s, compile tree file = .ok s) :
    ∃ e, (compileUpTo tree files).2 = some e := by
  induction files with
  | nil => exact absurd nofun failed
  | cons file rest ih =>
    rw [compileUpTo]
    cases outcome : compile tree file with
    | error e => exact ⟨e, rfl⟩
    | ok s => exact ih fun later => failed (List.forall_mem_cons.mpr ⟨⟨s, outcome⟩, later⟩)

variable [YamlReader]

theorem check_of_found (found : findProject tree text = .ok project) :
    check tree text = if (project.sources tree).isEmpty then .ok noSources
      else checkFiles tree (project.sources tree) := by
  unfold check
  rw [found]

theorem check_each (found : findProject tree text = .ok project)
    (each : ∀ file ∈ project.sources tree, compile tree file = .ok (schemaOf file)) :
    check tree text = .ok (checkReport schemaOf (project.sources tree)) := by
  rw [check_of_found found, checkReport]
  split
  · rfl
  · unfold checkFiles
    rw [compile_up_to_each each]

theorem check_failed (found : findProject tree text = .ok project)
    (failed : ¬ ∀ file ∈ project.sources tree, ∃ s, compile tree file = .ok s) : exitCode (check tree text) = 1 := by
  obtain ⟨e, stopped⟩ := compile_up_to_failed failed
  rw [check_of_found found]
  split
  · next empty =>
    rw [List.isEmpty_iff.mp empty] at failed
    exact absurd nofun failed
  · unfold checkFiles
    dsimp only
    rw [stopped]
    exact interrupted_code e _

end Checking

section Building

variable [YamlReader]

theorem build_of_found (found : findProject tree text = .ok project) :
    build tree text = if (project.sources tree).isEmpty then (tree, .ok noSources)
      else buildFiles tree (project.sources tree) project.buildDirectory := by
  unfold build
  rw [found]

theorem build_each (found : findProject tree text = .ok project)
    (done : (Build.run tree (project.sources tree) project.buildDirectory).2 =
      .ok ((project.sources tree).eraseDups.map fun file => (file, schemaOf file))) :
    (build tree text).2 = .ok (buildReport schemaOf (project.sources tree) project.buildDirectory) := by
  rw [build_of_found found, buildReport]
  split
  · rfl
  · unfold buildFiles
    cases whole : Build.run tree (project.sources tree) project.buildDirectory with
    | mk after outcome =>
      rw [whole] at done
      obtain rfl : outcome = _ := done
      dsimp only
      rw [List.map_map, List.length_map]
      rfl

theorem build_failed (found : findProject tree text = .ok project)
    (failed : ∀ compiled, (Build.run tree (project.sources tree) project.buildDirectory).2 ≠ .ok compiled) :
    exitCode (build tree text).2 = 1 := by
  rw [build_of_found found]
  split
  · next empty =>
    rw [List.isEmpty_iff.mp empty] at failed
    exact absurd rfl (failed [])
  · unfold buildFiles
    cases whole : Build.run tree (project.sources tree) project.buildDirectory with
    | mk after outcome =>
      rw [whole] at failed
      cases outcome with
      | ok compiled => exact absurd rfl (failed compiled)
      | error e => exact interrupted_code e _

end Building

section Predicting

theorem check_report_code (schemaOf : FilePath → Schema) (files : List FilePath) :
    exitCode (.ok (checkReport schemaOf files)) = 0 := by
  unfold checkReport
  split <;> rfl

theorem build_report_code (schemaOf : FilePath → Schema) (files : List FilePath) (directory : FilePath) :
    exitCode (.ok (buildReport schemaOf files directory)) = 0 := by
  unfold buildReport
  dsimp only
  split <;> rfl

theorem straight_of_each (directory : FilePath) (each : ∀ file ∈ files, ∃ s, compile tree file = .ok s) :
    Straight tree directory files := by
  intro file listed
  obtain ⟨s, compiled⟩ := each file listed
  exact .inr fun _ => Build.located_of_compile compiled

variable [YamlReader]

theorem check_code (found : findProject tree text = .ok project) :
    exitCode (check tree text) = 0 ↔ ∀ file ∈ project.sources tree, ∃ s, compile tree file = .ok s := by
  constructor
  · intro passed
    by_contra failed
    rw [check_failed found failed] at passed
    cases passed
  · intro each
    choose! schemaOf known using each
    rw [check_each found known, check_report_code]

/-- A check tells what a build of the same project will come to. Where it fails, so does the build, unless the
way to a source is opened by the build itself. Where it passes, the build passes and has the same warnings for
each source, unless artifacts get in the way of each other or of sources, and then it fails. -/
theorem check_predicts_build (found : findProject tree text = .ok project) (proper : tree.Proper)
    (writable : Writable tree project.buildDirectory (project.sources tree)) :
    (exitCode (check tree text) = 1 → Straight tree project.buildDirectory (project.sources tree) →
      exitCode (build tree text).2 = 1) ∧
    (exitCode (check tree text) = 0 → ¬ Apart tree project.buildDirectory (project.sources tree) →
      exitCode (build tree text).2 = 1) ∧
    (exitCode (check tree text) = 0 → Apart tree project.buildDirectory (project.sources tree) →
      exitCode (build tree text).2 = 0 ∧
      ∃ schemaOf : FilePath → Schema,
        (∀ file ∈ project.sources tree, compile tree file = .ok (schemaOf file)) ∧
        check tree text = .ok (checkReport schemaOf (project.sources tree)) ∧
        (build tree text).2 = .ok (buildReport schemaOf (project.sources tree) project.buildDirectory)) := by
  refine ⟨fun failed straight => ?_, fun passed clash => ?_, fun passed apart => ?_⟩
  · refine build_failed found fun compiled done => ?_
    obtain ⟨_, split, each⟩ := (Build.run_ok_iff proper writable straight).mp done
    have passed : exitCode (check tree text) = 0 := (check_code found).mpr fun file listed =>
      Build.exists_of_each split each file (List.mem_eraseDups.mpr listed)
    rw [passed] at failed
    cases failed
  · have straight := straight_of_each project.buildDirectory ((check_code found).mp passed)
    exact build_failed found fun compiled done =>
      clash ((Build.run_ok_iff proper writable straight).mp done).1
  · have each := (check_code found).mp passed
    have straight := straight_of_each project.buildDirectory each
    choose! schemaOf known using each
    have done : (Build.run tree (project.sources tree) project.buildDirectory).2 =
        .ok ((project.sources tree).eraseDups.map fun file => (file, schemaOf file)) := by
      refine (Build.run_ok_iff proper writable straight).mpr ⟨apart, ?_, fun e member => ?_⟩
      · rw [List.map_map]
        exact List.map_id'' (fun _ => rfl) _
      · obtain ⟨file, listed, rfl⟩ := List.mem_map.mp member
        exact known file (List.mem_eraseDups.mp listed)
    have built := build_each found done
    refine ⟨?_, schemaOf, known, check_each found known, built⟩
    rw [built, build_report_code]

end Predicting

section Projects

/-- The project is there, and artifacts can be written in its build directory. -/
def Buildable [YamlReader] (tree : FileTree) (project : Project) : Prop :=
  findProject tree "." = .ok project ∧ tree.Proper ∧ Writable tree project.buildDirectory (project.sources tree)

theorem buildable_of_trial [YamlReader] (project : Project)
    (found : (findProject tree ".").toOption = some project)
    (entries : ∀ e ∈ tree.entries, tree.isDirectory e.1.dropLast = true)
    (makes : (tree.makeDirectories project.buildDirectory).2.isOk = true)
    (takes : ∀ file ∈ project.sources tree, ((tree.makeDirectories project.buildDirectory).1.writeText
      (Build.artifactPath project.buildDirectory file) "").isOk = true) : Buildable tree project := by
  refine ⟨?_, FileTree.proper_of_entries entries, (exists_of_is_ok makes).choose_spec, fun file listed _ => takes file listed⟩
  cases outcome : findProject tree "." with
  | error e =>
    rw [outcome] at found
    cases found
  | ok other =>
    rw [outcome] at found
    exact congrArg Except.ok (Option.some.inj found)

def spelled (config : ProjectConfig) : String :=
  "build-directory: " ++ config.buildDirectory ++ "\nsources: [" ++ ", ".intercalate config.sources ++ "]"

def office (project : Project) (entries : List (List String × FileEntry)) : FileTree where
  workingDirectory := ["w"]
  entries := (["w"], .directory) ::
    (["w", ".sdkgen.yaml"], .file (spelled project.config).toUTF8.data.toList) :: entries

def source (text : String) : FileEntry := .file text.toUTF8.data.toList

def studyProject : Project := ⟨⟨1, ["w"]⟩, ⟨"out", ["a.sdkgen", "b.sdkgen", "a.sdkgen"]⟩⟩

def study : FileTree :=
  office studyProject [(["w", "a.sdkgen"], source "function f()"), (["w", "b.sdkgen"], source "fn g()")]

def twinsProject : Project := ⟨⟨1, ["w"]⟩, ⟨"out", ["v1/a.sdkgen", "v2/a.sdkgen"]⟩⟩

/-- Two sources have one name. -/
def twins : FileTree :=
  office twinsProject
    [(["w", "v1"], .directory), (["w", "v1", "a.sdkgen"], source "fn f()"),
      (["w", "v2"], .directory), (["w", "v2", "a.sdkgen"], source "fn g()")]

def cuckooProject : Project := ⟨⟨1, ["w"]⟩, ⟨".", ["a.sdkgen", "a.sdkgen.json"]⟩⟩

/-- The second source has the name of the artifact of the first one. -/
def cuckoo : FileTree :=
  office cuckooProject [(["w", "a.sdkgen"], source "fn f()"), (["w", "a.sdkgen.json"], source "fn g()")]

def passageProject : Project := ⟨⟨1, ["w"]⟩, ⟨"out", ["a.sdkgen", "out/../b.sdkgen"]⟩⟩

/-- The way to the second source leads through the build directory. -/
def passage : FileTree :=
  office passageProject [(["w", "a.sdkgen"], source "fn f()"), (["w", "b.sdkgen"], source "fn g()")]

@[reducible]
def officeReader : YamlReader where
  read text :=
    let projects := [studyProject, twinsProject, cuckooProject, passageProject]
    match projects.find? (spelled ·.config = text) with
    | none => .error .malformed
    | some project => .ok (.mapping [
      (.string "build-directory", .string project.config.buildDirectory),
      (.string "sources", .list (project.config.sources.map .string))])

theorem study_buildable : @Buildable officeReader study studyProject :=
  let _ := officeReader
  buildable_of_trial _ (by decide +kernel) (by decide +kernel) (by decide +kernel) (by decide +kernel)

theorem study_passes : exitCode (@check officeReader study ".") = 0 := by
  rw [@check_of_found _ _ _ officeReader study_buildable.1]
  decide +kernel

theorem study_predicted : ∃ _ : YamlReader,
    Buildable study studyProject ∧ exitCode (check study ".") = 0 ∧
    Apart study studyProject.buildDirectory (studyProject.sources study) ∧ exitCode (build study ".").2 = 0 ∧
    ∃ schemaOf, check study "." = .ok (checkReport schemaOf (studyProject.sources study)) ∧
      (build study ".").2 = .ok (buildReport schemaOf (studyProject.sources study) studyProject.buildDirectory) := by
  let reader := officeReader
  have apart : Apart study studyProject.buildDirectory (studyProject.sources study) :=
    ⟨by decide +kernel, by decide +kernel⟩
  obtain ⟨found, proper, writable⟩ := study_buildable
  obtain ⟨code, schemaOf, _, checked, built⟩ := (check_predicts_build found proper writable).2.2 study_passes apart
  exact ⟨reader, study_buildable, study_passes, apart, code, schemaOf, checked, built⟩

def warnings (outcome : Outcome) : List String :=
  match outcome with
  | .ok report => report.printed.filter (·.startsWith "Warning: ")
  | .error _ => []

/-- A build can fail where the check has passed, can pass where the check has failed, and can have fewer warnings. -/
theorem build_unpredicted : ∃ _ : YamlReader,
    (Buildable twins twinsProject ∧ exitCode (check twins ".") = 0 ∧ exitCode (build twins ".").2 = 1) ∧
    (Buildable cuckoo cuckooProject ∧ exitCode (check cuckoo ".") = 0 ∧ exitCode (build cuckoo ".").2 = 1) ∧
    (Buildable passage passageProject ∧ exitCode (check passage ".") = 1 ∧ exitCode (build passage ".").2 = 0) ∧
    (Buildable study studyProject ∧ exitCode (check study ".") = 0 ∧ exitCode (build study ".").2 = 0 ∧
      (warnings (check study ".")).length = 2 ∧ (warnings (build study ".").2).length = 1) := by
  let reader := officeReader
  have shared : Buildable twins twinsProject :=
    buildable_of_trial _ (by decide +kernel) (by decide +kernel) (by decide +kernel) (by decide +kernel)
  have displaced : Buildable cuckoo cuckooProject :=
    buildable_of_trial _ (by decide +kernel) (by decide +kernel) (by decide +kernel) (by decide +kernel)
  have passing : Buildable passage passageProject :=
    buildable_of_trial _ (by decide +kernel) (by decide +kernel) (by decide +kernel) (by decide +kernel)
  have studied : Buildable study studyProject := study_buildable
  refine ⟨reader, ?_⟩
  rw [check_of_found shared.1, check_of_found displaced.1, check_of_found passing.1, check_of_found studied.1,
    build_of_found shared.1, build_of_found displaced.1, build_of_found passing.1, build_of_found studied.1]
  exact ⟨⟨shared, by decide +kernel, by decide +kernel⟩, ⟨displaced, by decide +kernel, by decide +kernel⟩,
    ⟨passing, by decide +kernel, by decide +kernel⟩,
    ⟨studied, by decide +kernel, by decide +kernel, by decide +kernel, by decide +kernel⟩⟩

end Projects

end CommandLine

end ApiSchema
