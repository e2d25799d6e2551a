import ApiSchema.Proofs.Build.Sources
import ApiSchema.Proofs.Document.Writing

/-! What building several files leaves behind: the artifacts of the files before the first failure, and
nothing else but the directory that they are in. No artifact is in the way of a later file. -/

namespace ApiSchema

namespace Build

open FileTree (Overlays Ready Grows)

variable {tree made t t' : FileTree} {directory : FilePath} {dir : List String} {files rest : List FilePath}
  {file : FilePath} {s : Schema}

def artifactPath (directory file : FilePath) : FilePath := directory.join ⟨0, [artifactName file]⟩

/-- A place whose name has the ending of artifacts. -/
def ArtifactPlace (place : List String) : Prop :=
  ∃ name, place.getLast? = some name ∧ Artifact.ending.toList <:+ name.toList

section Names

theorem artifact_name_ending (file : FilePath) : Artifact.ending.toList <:+ (artifactName file).toList := by
  rw [artifactName, String.toList_append]
  exact List.suffix_append ..

theorem artifact_name_proper (file : FilePath) : artifactName file ≠ ".." := by
  intro same
  have short := (artifact_name_ending file).length_le
  rw [same] at short
  exact absurd short (by decide)

theorem artifact_place (dir : List String) (file : FilePath) : ArtifactPlace (dir ++ [artifactName file]) :=
  ⟨_, List.getLast?_concat, artifact_name_ending file⟩

theorem source_no_artifact (source : file.hasEnding sourceEnding = true) {place : List String}
    (last : place.getLast? = some file.name) : ¬ ArtifactPlace place := by
  rintro ⟨name, named, artifact⟩
  obtain rfl := Option.some.inj (last.symm.trans named)
  have inside := List.suffix_of_suffix_length_le (has_ending_iff.mp source) artifact (by decide)
  exact absurd inside (by decide)

theorem artifact_name_injective {other : FilePath} (same : artifactName file = artifactName other) :
    file.stem = other.stem := by
  have lists := congrArg String.toList same
  rw [artifactName, artifactName, String.toList_append, String.toList_append] at lists
  exact String.toList_inj.mp (List.append_cancel_right lists)

end Names

section Compiling

theorem read_overlaid (overlaid : Overlays ArtifactPlace made t) {p : FilePath} {content : String}
    (source : p.hasEnding sourceEnding = true) : t.readText p = .ok content ↔ made.readText p = .ok content := by
  obtain ⟨present, down⟩ := proper_of_ending source
  exact FileTree.read_text_congr fun _ =>
    overlaid.read_bytes present down fun place last => source_no_artifact source last

theorem supplies_overlaid (overlaid : Overlays ArtifactPlace made t) :
    Grammar.Supplies t made ∧ Grammar.Supplies made t :=
  ⟨⟨overlaid.working.symm, fun _ _ source _ => (read_overlaid overlaid source).mp⟩,
    ⟨overlaid.working, fun _ _ source _ => (read_overlaid overlaid source).mpr⟩⟩

theorem compile_overlaid (overlaid : Overlays ArtifactPlace made t) (source : file.hasEnding sourceEnding = true) :
    compile t file = .ok s ↔ compile made file = .ok s := by
  obtain ⟨back, forth⟩ := supplies_overlaid overlaid
  exact ⟨compile_supplied back fun _ => (read_overlaid overlaid source).mp,
    compile_supplied forth fun _ => (read_overlaid overlaid source).mpr⟩

/-- Directories that are made do not matter to a file on a plain way, or one that was found without them. -/
theorem compile_grown {ps : List FilePath} (grows : Grows ps tree made) (proper : tree.Proper)
    (way : ".." ∉ file.segments ∨ ∃ place, tree.locate file = .ok place) :
    compile made file = .ok s ↔ compile tree file = .ok s := by
  have same : ∀ p content, (".." ∉ p.segments ∨ ∃ place, tree.locate p = .ok place) →
      (made.readText p = .ok content ↔ tree.readText p = .ok content) := fun p content way =>
    FileTree.read_text_congr fun _ => grows.read_bytes proper way
  constructor
  · refine compile_supplied ⟨grows.working.symm, fun p content _ plain => (same p content (.inl plain)).mp⟩ ?_
    exact fun content => (same file content way).mp
  · refine compile_supplied ⟨grows.working, fun p content _ plain => (same p content (.inl plain)).mpr⟩ ?_
    exact fun content => (same file content way).mpr

theorem named_of_compile (compiled : compile tree file = .ok s) : FileTree.hasNull file = false := by
  obtain ⟨source, _, read, _⟩ := compile_ok.mp compiled
  refine Bool.eq_false_iff.mpr fun null => ?_
  unfold FileTree.readText at read
  rw [if_pos null] at read
  cases read

theorem artifact_of_compile (compiled : compile tree file = .ok s) :
    ∃ text, Artifact.write s = .ok text := by
  obtain ⟨_, _, _, parsed, accepted⟩ := compile_ok.mp compiled
  exact Schema.exists_artifact parsed accepted

end Compiling

section Storing

/-- The tree has the artifacts of what was compiled, in this directory, and is otherwise as it was. -/
structure Written (dir : List String) (compiled : List (FilePath × Schema)) (t t' : FileTree) : Prop where
  working : t'.workingDirectory = t.workingDirectory
  artifacts : ∀ e ∈ compiled, ∃ text, Artifact.write e.2 = .ok text ∧
    t'.get? (dir ++ [artifactName e.1]) = some (.file text.toUTF8.data.toList)
  others : ∀ place, (∀ e ∈ compiled, place ≠ dir ++ [artifactName e.1]) → t'.get? place = t.get? place

/-- In the directory an artifact of the file can be written. -/
def Takes (made : FileTree) (directory file : FilePath) : Prop :=
  FileTree.hasNull file = false → (made.writeText (artifactPath directory file) "").isOk = true

theorem store_ok (ready : Ready made directory dir) (overlaid : Overlays ArtifactPlace made t)
    (takes : Takes made directory file) (named : FileTree.hasNull file = false) {text : String}
    (artifact : Artifact.write s = .ok text) :
    ¬ made.isDirectory (dir ++ [artifactName file]) = true ∧
      store t (artifactPath directory file) s =
        (t.set (dir ++ [artifactName file]) (.file text.toUTF8.data.toList), .ok ()) := by
  obtain ⟨after, written⟩ := exists_of_is_ok (takes named)
  obtain ⟨plain, place, target, free, _⟩ := FileTree.write_text_ok.mp written
  have proper := artifact_name_proper file
  obtain ⟨short, fits, rfl⟩ := (FileTree.target_below ready proper).mp target
  have again := (FileTree.target_below (overlaid.ready ready) proper).mpr ⟨short, fits, rfl⟩
  refine ⟨free, ?_⟩
  have parent : (artifactPath directory file).parent = directory := directory.parent_below _
  unfold store
  rw [parent, (overlaid.ready ready).make]
  dsimp only
  rw [artifact]
  dsimp only
  rw [FileTree.write_text_ok.mpr ⟨plain, _, again, mt (overlaid.directory_iff _).mp free, rfl⟩]

theorem Written.cons {compiled : List (FilePath × Schema)} {text : String}
    (artifact : Artifact.write s = .ok text)
    (written : Written dir compiled (t.set (dir ++ [artifactName file]) (.file text.toUTF8.data.toList)) t')
    (apart : ∀ e ∈ compiled, artifactName file ≠ artifactName e.1) :
    Written dir ((file, s) :: compiled) t t' := by
  have other : ∀ e ∈ compiled, dir ++ [artifactName file] ≠ dir ++ [artifactName e.1] := fun e listed same =>
    apart e listed (by simpa using same)
  refine ⟨written.working, List.forall_mem_cons.mpr ⟨⟨text, artifact, ?_⟩, written.artifacts⟩, ?_⟩
  · rw [written.others _ other]
    exact FileTree.get_set_self (by simp)
  · intro place elsewhere
    obtain ⟨here, others⟩ := List.forall_mem_cons.mp elsewhere
    rw [written.others place others]
    exact FileTree.get_set_other here

end Storing

section Loop

/-- How a run ends: with all that was compiled, or with an error if a file was left. -/
def Ends (base : FileTree) (compiled : List (FilePath × Schema))
    (outcome : Except BuildFailure (List (FilePath × Schema))) : List FilePath → Prop
  | [] => outcome = .ok compiled
  | file :: _ => (∀ s, compile base file ≠ .ok s) ∧ ∃ e, outcome = .error e

theorem Ends.cons {base : FileTree} {compiled : List (FilePath × Schema)}
    {outcome : Except BuildFailure (List (FilePath × Schema))} (ends : Ends base compiled outcome rest)
    (e : FilePath × Schema) : Ends base (e :: compiled) (outcome.map (e :: ·)) rest := by
  cases rest with
  | nil =>
    have done : outcome = .ok compiled := ends
    rw [done]
    rfl
  | cons file rest =>
    obtain ⟨refused, fault, failed⟩ := ends
    exact ⟨refused, fault, by rw [failed]; rfl⟩

theorem artifact_apart {compiled : List (FilePath × Schema)} (fresh : artifactName file ∉ files.map artifactName)
    (split : files = compiled.map (·.1) ++ rest) : ∀ e ∈ compiled, artifactName file ≠ artifactName e.1 := by
  intro e listed same
  refine fresh (List.mem_map.mpr ⟨e.1, ?_, same.symm⟩)
  rw [split]
  exact List.mem_append_left _ (List.mem_map_of_mem listed)

theorem compile_each_outcome (ready : Ready made directory dir) (overlaid : Overlays ArtifactPlace made t)
    (sources : ∀ file ∈ files, file.hasEnding sourceEnding = true)
    (takes : ∀ file ∈ files, Takes made directory file) (distinct : (files.map artifactName).Nodup) :
    ∃ compiled rest, files = compiled.map (·.1) ++ rest ∧ (∀ e ∈ compiled, compile made e.1 = .ok e.2) ∧
      Ends made compiled (compileEach directory t files).2 rest ∧
      Written dir compiled t (compileEach directory t files).1 := by
  induction files generalizing t with
  | nil => exact ⟨[], [], rfl, nofun, rfl, rfl, nofun, fun _ _ => rfl⟩
  | cons file files ih =>
    obtain ⟨source, sources⟩ := List.forall_mem_cons.mp sources
    obtain ⟨own, takes⟩ := List.forall_mem_cons.mp takes
    obtain ⟨fresh, distinct⟩ := List.nodup_cons.mp distinct
    rw [compileEach]
    cases outcome : compile t file with
    | error e =>
      refine ⟨[], file :: files, rfl, nofun, ⟨fun s compiled => ?_, e, rfl⟩, rfl, nofun, fun _ _ => rfl⟩
      rw [(compile_overlaid overlaid source).mpr compiled] at outcome
      cases outcome
    | ok s =>
      have first := (compile_overlaid overlaid source).mp outcome
      obtain ⟨text, artifact⟩ := artifact_of_compile outcome
      obtain ⟨free, stored⟩ := store_ok ready overlaid own (named_of_compile outcome) artifact
      obtain ⟨compiled, rest, split, each, ends, written⟩ := ih
        (overlaid.set (artifact_place dir file) (by simp) free text.toUTF8.data.toList) sources takes distinct
      dsimp only
      rw [artifactPath] at stored
      rw [stored]
      exact ⟨(file, s) :: compiled, rest, congrArg (file :: ·) split, List.forall_mem_cons.mpr ⟨first, each⟩,
        ends.cons (file, s), written.cons artifact (artifact_apart fresh split)⟩

end Loop

section Distinct

theorem distinct_ok {kept : List FilePath}
    (same : ∀ file ∈ kept ++ files, ∀ other ∈ kept ++ files, file.stem = other.stem → file = other) :
    distinct kept files = .ok (kept ++ (files.filter (· ∉ kept)).eraseDups) := by
  induction files generalizing kept with
  | nil => exact congrArg Except.ok (List.append_nil kept).symm
  | cons file rest ih =>
    have own : file ∈ kept ++ file :: rest := List.mem_append_right _ (List.mem_cons_self ..)
    rw [distinct]
    cases found : kept.find? (·.stem == file.stem) with
    | none =>
      have new : file ∉ kept := fun listed => by
        have other := List.find?_eq_none.mp found file listed
        exact other (beq_self_eq_true _)
      dsimp only
      rw [ih (by rwa [List.append_assoc]),
        List.filter_cons_of_pos (p := fun p => decide (p ∉ kept)) (decide_eq_true new), List.eraseDups_cons,
        List.filter_filter, List.append_assoc]
      have others : (fun p => decide (p ∉ kept ++ [file])) = fun p => (!p == file) && decide (p ∉ kept) := by
        funext p
        rw [Bool.eq_iff_iff]
        simp [and_comm]
      rw [others]
      rfl
    | some first =>
      have listed := List.mem_of_find?_eq_some found
      have shared : first.stem = file.stem := beq_iff_eq.mp (List.find?_some found :)
      obtain rfl := same first (List.mem_append_left _ listed) file own shared
      have fewer : ∀ p ∈ kept ++ rest, p ∈ kept ++ first :: rest := fun p =>
        (List.Sublist.append_left (List.sublist_cons_self first rest) kept).mem
      dsimp only
      rw [if_pos rfl, ih fun p inside q inside' => same p (fewer p inside) q (fewer q inside'),
        List.filter_cons_of_neg (by simpa using listed)]

theorem distinct_step {kept taken : List FilePath} (ok : distinct kept (file :: rest) = .ok taken) :
    ((∀ p ∈ kept, p.stem ≠ file.stem) ∧ distinct (kept ++ [file]) rest = .ok taken) ∨
      (file ∈ kept ∧ distinct kept rest = .ok taken) := by
  rw [distinct] at ok
  cases found : kept.find? (·.stem == file.stem) with
  | none =>
    rw [found] at ok
    exact .inl ⟨fun p listed shared => List.find?_eq_none.mp found p listed (beq_iff_eq.mpr shared), ok⟩
  | some first =>
    rw [found] at ok
    dsimp only at ok
    split at ok
    · next same => exact .inr ⟨same ▸ List.mem_of_find?_eq_some found, ok⟩
    · cases ok

theorem distinct_apart {kept taken : List FilePath} (ok : distinct kept files = .ok taken)
    (before : ∀ file ∈ kept, ∀ other ∈ kept, file.stem = other.stem → file = other) :
    ∀ file ∈ kept ++ files, ∀ other ∈ kept ++ files, file.stem = other.stem → file = other := by
  induction files generalizing kept with
  | nil => rwa [List.append_nil]
  | cons file rest ih =>
    rcases distinct_step ok with ⟨apart, further⟩ | ⟨known, further⟩
    · rw [List.append_cons]
      refine ih further fun p inside q inside' shared => ?_
      rcases List.mem_append.mp inside with old | new <;> rcases List.mem_append.mp inside' with old' | new'
      · exact before p old q old' shared
      · exact absurd (List.mem_singleton.mp new' ▸ shared) (apart p old)
      · exact absurd (List.mem_singleton.mp new ▸ shared.symm) (apart q old')
      · rw [List.mem_singleton.mp new, List.mem_singleton.mp new']
    · have fewer : ∀ p ∈ kept ++ file :: rest, p ∈ kept ++ rest := by
        intro p inside
        rw [List.mem_append, List.mem_cons] at inside
        rcases inside with old | rfl | late
        · exact List.mem_append_left _ old
        · exact List.mem_append_left _ known
        · exact List.mem_append_right _ late
      exact fun p inside q inside' => ih further before p (fewer p inside) q (fewer q inside')

theorem distinct_nodup {kept taken : List FilePath} (ok : distinct kept files = .ok taken)
    (before : (kept.map FilePath.stem).Nodup) : (taken.map FilePath.stem).Nodup := by
  induction files generalizing kept with
  | nil =>
    cases ok
    exact before
  | cons file rest ih =>
    rcases distinct_step ok with ⟨apart, further⟩ | ⟨_, further⟩
    · refine ih further ?_
      rw [List.map_append, List.nodup_append]
      refine ⟨before, List.pairwise_singleton .., ?_⟩
      intro stem listed _ new shared
      obtain ⟨p, inside, rfl⟩ := List.mem_map.mp listed
      exact apart p inside (shared.trans (List.mem_singleton.mp new))
    · exact ih further before

theorem distinct_refused {kept : List FilePath} {e : BuildError} (refused : distinct kept files = .error e) :
    ∃ first other, e = .sharedArtifact first other ∧ first ≠ other ∧ first.stem = other.stem := by
  induction files generalizing kept with
  | nil => cases refused
  | cons file rest ih =>
    rw [distinct] at refused
    cases found : kept.find? (·.stem == file.stem) with
    | none =>
      rw [found] at refused
      exact ih refused
    | some first =>
      rw [found] at refused
      dsimp only at refused
      split at refused
      · exact ih refused
      · next other =>
        cases refused
        exact ⟨first, file, rfl, other, beq_iff_eq.mp (List.find?_some found :)⟩

theorem distinct_shared {other : FilePath} (listed : file ∈ files) (listed' : other ∈ files) (apart : file ≠ other)
    (shared : file.stem = other.stem) : ∃ first second, first ≠ second ∧ first.stem = second.stem ∧
      distinct [] files = .error (.sharedArtifact first second) := by
  cases outcome : distinct [] files with
  | ok taken => exact absurd (distinct_apart outcome nofun file listed other listed' shared) apart
  | error e =>
    obtain ⟨first, second, rfl, others, same⟩ := distinct_refused outcome
    exact ⟨first, second, others, same, rfl⟩

end Distinct

section Run

/-- A directory in which the artifacts of the files can be written. -/
structure Writable (tree : FileTree) (directory : FilePath) (files : List FilePath) : Prop where
  makes : (tree.makeDirectories directory).2 = .ok ()
  takes : ∀ file ∈ files, Takes (tree.makeDirectories directory).1 directory file

/-- What the files are compiled in: the first one in the tree as it was, the others when the directory has been made. -/
def turn (tree made : FileTree) : Nat → FileTree
  | 0 => tree
  | _ + 1 => made

/-- What remains of a run that has compiled some of its files. -/
structure Leaves (tree made : FileTree) (dir : List String) (compiled : List (FilePath × Schema)) (rest : List FilePath)
    (result : FileTree × Except BuildFailure (List (FilePath × Schema))) : Prop where
  each : ∀ n e, compiled[n]? = some e → compile (turn tree made n) e.1 = .ok e.2
  ends : Ends (turn tree made compiled.length) compiled result.2 rest
  untouched : compiled = [] → result.1 = tree
  written : compiled ≠ [] → Written dir compiled made result.1

theorem store_made (making : tree.makeDirectories directory = (made, .ok ())) (ready : Ready made directory dir) :
    store tree (artifactPath directory file) s = store made (artifactPath directory file) s := by
  have parent : (artifactPath directory file).parent = directory := directory.parent_below _
  unfold store
  rw [parent, making, ready.make]

theorem compile_each_leaves (making : tree.makeDirectories directory = (made, .ok ())) (ready : Ready made directory dir)
    (sources : ∀ file ∈ files, file.hasEnding sourceEnding = true)
    (takes : ∀ file ∈ files, Takes made directory file) (distinct : (files.map artifactName).Nodup) :
    ∃ compiled rest, files = compiled.map (·.1) ++ rest ∧
      Leaves tree made dir compiled rest (compileEach directory tree files) := by
  cases files with
  | nil => exact ⟨[], [], rfl, nofun, rfl, fun _ => rfl, fun some => absurd rfl some⟩
  | cons file files =>
    obtain ⟨own, takes⟩ := List.forall_mem_cons.mp takes
    obtain ⟨fresh, distinct⟩ := List.nodup_cons.mp distinct
    rw [compileEach]
    cases outcome : compile tree file with
    | error e =>
      refine ⟨[], file :: files, rfl, nofun, ⟨fun s compiled => ?_, e, rfl⟩, fun _ => rfl,
        fun some => absurd rfl some⟩
      cases outcome.symm.trans compiled
    | ok s =>
      obtain ⟨text, artifact⟩ := artifact_of_compile outcome
      have overlaid := Overlays.refl ArtifactPlace made
      obtain ⟨free, stored⟩ := store_ok ready overlaid own (named_of_compile outcome) artifact
      obtain ⟨compiled, rest, split, each, ends, written⟩ := compile_each_outcome ready
        (overlaid.set (artifact_place dir file) (by simp) free text.toUTF8.data.toList)
        (List.forall_mem_cons.mp sources).2 takes distinct
      rw [← store_made making ready, artifactPath] at stored
      dsimp only
      rw [stored]
      refine ⟨(file, s) :: compiled, rest, congrArg (file :: ·) split, fun n e listed => ?_,
        ends.cons (file, s), nofun, fun _ => written.cons artifact (artifact_apart fresh split)⟩
      cases n with
      | zero =>
        cases listed
        exact outcome
      | succ n => exact each e (List.mem_of_getElem? listed)

/-- A build stops at the first file that is refused and leaves the artifacts of those before it. Two files that would
share an artifact are refused before anything is written. -/
theorem build_prefix (proper : tree.Proper) (sources : ∀ file ∈ files, file.hasEnding sourceEnding = true)
    (writable : Writable tree directory files) :
    ((∃ file ∈ files, ∃ other ∈ files, file ≠ other ∧ file.stem = other.stem) →
      ∃ first second, first ≠ second ∧ first.stem = second.stem ∧
        run tree files directory = (tree, .error (.error (.sharedArtifact first second)))) ∧
    ((∀ file ∈ files, ∀ other ∈ files, file.stem = other.stem → file = other) →
      ∃ made dir compiled rest, tree.makeDirectories directory = (made, .ok ()) ∧ made.locate directory = .ok dir ∧
        Grows (directory.parents.reverse ++ [directory]) tree made ∧ files.eraseDups = compiled.map (·.1) ++ rest ∧
        Leaves tree made dir compiled rest (run tree files directory) ∧
        ∀ file s, (".." ∉ file.segments ∨ ∃ place, tree.locate file = .ok place) →
          (compile made file = .ok s ↔ compile tree file = .ok s)) := by
  constructor
  · rintro ⟨file, listed, other, listed', apart, shared⟩
    obtain ⟨first, second, others, same, refused⟩ := distinct_shared listed listed' apart shared
    refine ⟨first, second, others, same, ?_⟩
    unfold run
    rw [refused]
  · intro same
    obtain ⟨makes, takes⟩ := writable
    cases making : tree.makeDirectories directory with
    | mk made outcome =>
      rw [making] at makes takes
      obtain rfl : outcome = .ok () := makes
      obtain ⟨grows, dir, ready⟩ := FileTree.ready_of_make making
      have taken : distinct [] files = .ok files.eraseDups := by
        rw [distinct_ok same, List.filter_eq_self.mpr (by simp), List.nil_append]
      have apart : (files.eraseDups.map artifactName).Nodup :=
        List.pairwise_map.mpr ((List.pairwise_map.mp (distinct_nodup taken .nil)).imp
          fun other same => other (artifact_name_injective same))
      obtain ⟨compiled, rest, split, leaves⟩ := compile_each_leaves making ready
        (fun file listed => sources file (List.mem_eraseDups.mp listed))
        (fun file listed => takes file (List.mem_eraseDups.mp listed)) apart
      refine ⟨made, dir, compiled, rest, rfl, ready.located, grows, split, ?_,
        fun file s => compile_grown grows proper⟩
      unfold run
      rw [taken]
      exact leaves

def workshop : FileTree where
  workingDirectory := ["w"]
  entries := [(["w"], .directory), (["w", "api.sdkgen"], .file "fn f()".toUTF8.data.toList),
    (["w", "rest.sdkgen"], .file "fn".toUTF8.data.toList)]

def orders : List FilePath := [.ofText "api.sdkgen", .ofText "api.sdkgen", .ofText "rest.sdkgen"]

theorem workshop_prefix : workshop.Proper ∧ (∀ file ∈ orders, file.hasEnding sourceEnding = true) ∧
    Writable workshop (.ofText "out") orders ∧
    ∃ s text, compile workshop (.ofText "api.sdkgen") = .ok s ∧ Artifact.write s = .ok text ∧
      (run workshop orders (.ofText "out")).1.get? ["w", "out", "api.sdkgen.json"] =
        some (.file text.toUTF8.data.toList) ∧
      ∃ e, (run workshop orders (.ofText "out")).2 = .error e := by
  have proper : workshop.Proper := FileTree.proper_of_entries (by decide +kernel)
  have sources : ∀ file ∈ orders, file.hasEnding sourceEnding = true := by decide +kernel
  have makes : (workshop.makeDirectories (.ofText "out")).2.isOk = true := by decide +kernel
  have takes : ∀ file ∈ orders, ((workshop.makeDirectories (.ofText "out")).1.writeText
      (artifactPath (.ofText "out") file) "").isOk = true := by decide +kernel
  have writable : Writable workshop (.ofText "out") orders :=
    ⟨(exists_of_is_ok makes).choose_spec, fun file listed _ => takes file listed⟩
  have place : ((workshop.makeDirectories (.ofText "out")).1.locate (.ofText "out")).toOption = some ["w", "out"] := by
    decide +kernel
  have first : (compile workshop (.ofText "api.sdkgen")).isOk = true := by decide +kernel
  have second : (compile workshop (.ofText "rest.sdkgen")).isOk = false := by decide +kernel
  obtain ⟨_, whole⟩ := build_prefix proper sources writable
  obtain ⟨made, dir, compiled, rest, making, located, _, split, leaves, same⟩ := whole (by decide +kernel)
  rw [making, located] at place
  obtain rfl := Option.some.inj place
  have once : orders.eraseDups = [.ofText "api.sdkgen", .ofText "rest.sdkgen"] := by decide +kernel
  rw [once] at split
  refine ⟨proper, sources, writable, ?_⟩
  cases compiled with
  | nil =>
    subst split
    obtain ⟨s, ok⟩ := exists_of_is_ok first
    exact absurd ok (leaves.ends.1 s)
  | cons e others =>
    obtain ⟨file, s⟩ := e
    obtain ⟨here, further⟩ := List.cons.inj split
    subst here
    have ok : compile workshop (.ofText "api.sdkgen") = .ok s := leaves.each 0 (.ofText "api.sdkgen", s) rfl
    have written := leaves.written (by simp)
    obtain ⟨text, artifact, stored⟩ := written.artifacts _ (List.mem_cons_self ..)
    have name : artifactName (.ofText "api.sdkgen") = "api.sdkgen.json" := by decide +kernel
    rw [name] at stored
    refine ⟨s, text, ok, artifact, stored, ?_⟩
    cases others with
    | nil =>
      subst further
      exact leaves.ends.2
    | cons e others =>
      obtain ⟨file, s'⟩ := e
      obtain ⟨here, _⟩ := List.cons.inj further
      subst here
      have plain : ".." ∉ (FilePath.ofText "rest.sdkgen").segments := by decide +kernel
      have ok : compile workshop (.ofText "rest.sdkgen") = .ok s' :=
        (same _ s' (.inl plain)).mp (leaves.each 1 (.ofText "rest.sdkgen", s') rfl)
      rw [ok] at second
      cases second

/-- The way to the second source leads through the directory that is to be made. -/
def detour : FileTree where
  workingDirectory := ["w"]
  entries := [(["w"], .directory), (["w", "a.sdkgen"], .file "type A int\nfn f(a: A)".toUTF8.data.toList),
    (["w", "b.sdkgen"], .file "fn g()".toUTF8.data.toList)]

def ways : List FilePath := [.ofText "a.sdkgen", .ofText "build/../b.sdkgen"]

/-- What is not there for the first source can be there for the second. -/
theorem detour_made : detour.Proper ∧ (∀ file ∈ ways, file.hasEnding sourceEnding = true) ∧
    Writable detour (.ofText "build") ways ∧ (ways.map FilePath.stem).Nodup ∧
    (∀ s, compile detour (.ofText "build/../b.sdkgen") ≠ .ok s) ∧
    ∃ compiled, (run detour ways (.ofText "build")).2 = .ok compiled ∧ compiled.map (·.1) = ways := by
  have makes : (detour.makeDirectories (.ofText "build")).2.isOk = true := by decide +kernel
  have takes : ∀ file ∈ ways, ((detour.makeDirectories (.ofText "build")).1.writeText
      (artifactPath (.ofText "build") file) "").isOk = true := by decide +kernel
  have second : (compile detour (.ofText "build/../b.sdkgen")).isOk = false := by decide +kernel
  have whole : (run detour ways (.ofText "build")).2.toOption.map (·.map (·.1)) = some ways := by decide +kernel
  refine ⟨FileTree.proper_of_entries (by decide +kernel), by decide +kernel,
    ⟨(exists_of_is_ok makes).choose_spec, fun file listed _ => takes file listed⟩, by decide +kernel,
    fun s compiled => ?_, ?_⟩
  · rw [compiled] at second
    cases second
  · cases outcome : (run detour ways (.ofText "build")).2 with
    | error e =>
      rw [outcome] at whole
      cases whole
    | ok compiled =>
      rw [outcome] at whole
      exact ⟨compiled, rfl, Option.some.inj whole⟩

end Run

end Build

end ApiSchema
