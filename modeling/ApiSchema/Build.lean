import ApiSchema.Build.Error
import ApiSchema.Schema.OfTree
import ApiSchema.Tree.Parser

/-!
Compiling of files: the schema of one file, and the artifacts of several.
-/

namespace ApiSchema.Build

def unreadable (file : String) : AccessError → BuildFailure
  | .system e => .error (.unreadableSource file e)
  | .nullCharacter | .notText => .notText

def unparsed (file : String) : ParseFailure → BuildFailure
  | .lexer e => .error (.lexer file e)
  | .grammar e => .error (.grammar file e)
  | .numberTooLong => .numberTooLong
  | .notText => .notText

def unanalysed (file : String) : AnalysisFailure → BuildFailure
  | .semantic e => .error (.semantic file e)
  | .unresolved e => .unresolved e
  | .endless => .endless

def compile (tree : FileTree) (path : FilePath) : Except BuildFailure Schema := do
  let source ← (tree.readText path).mapError (unreadable path.text)
  let parsed ← (SchemaTree.parse tree path.text source).mapError (unparsed path.text)
  (Schema.ofTree parsed).analyse.mapError (unanalysed path.text)

def unloaded (file : String) : Artifact.LoadError → BuildFailure
  | .malformed | .invalid (.unresolved _) => .error (.malformedArtifact file)
  | .invalid (.semantic e) => .error (.invalidArtifact file e)
  | .invalid .endless => .endless

/-- The schema of an artifact, known by the ending of its name, or of a source file. -/
def load (tree : FileTree) (path : FilePath) : Except BuildFailure Schema :=
  if path.hasEnding Artifact.ending then
    match tree.readText path with
    | .ok text => (Artifact.read text).mapError (unloaded path.text)
    | .error (.system e) => .error (.error (.unreadableArtifact path.text e))
    | .error _ => .error (.error (.malformedArtifact path.text))
  else compile tree path

/-- Writes an artifact. The directories above it are made first, and remain if that is all. -/
def store (tree : FileTree) (path : FilePath) (s : Schema) :
    FileTree × Except BuildFailure Unit :=
  match tree.makeDirectories path.parent with
  | (tree, .error e) => (tree, .error (.inaccessible e))
  | (tree, .ok ()) =>
    match Artifact.write s with
    | .error e => (tree, .error (.unwritten e))
    | .ok text =>
      match tree.writeText path text with
      | .error e => (tree, .error (.inaccessible e))
      | .ok tree => (tree, .ok ())

/-- Each file once, in order, if no two of them would share an artifact. -/
def distinct (kept : List FilePath) : List FilePath → Except BuildError (List FilePath)
  | [] => .ok kept
  | file :: rest =>
    match kept.find? (·.stem == file.stem) with
    | none => distinct (kept ++ [file]) rest
    | some first => if first = file then distinct kept rest else .error (.sharedArtifact first file)

/-- Compiles and stores one file after another up to the first failure, of which the artifacts
before it remain. -/
def compileEach (directory : FilePath) (tree : FileTree) :
    List FilePath → FileTree × Except BuildFailure (List (FilePath × Schema))
  | [] => (tree, .ok [])
  | file :: rest =>
    match compile tree file with
    | .error e => (tree, .error e)
    | .ok s =>
      match store tree (directory.join ⟨0, [artifactName file]⟩) s with
      | (tree, .error e) => (tree, .error e)
      | (tree, .ok ()) =>
        let (tree, outcome) := compileEach directory tree rest
        (tree, outcome.map ((file, s) :: ·))

def run (tree : FileTree) (files : List FilePath) (directory : FilePath) :
    FileTree × Except BuildFailure (List (FilePath × Schema)) :=
  match distinct [] files with
  | .error e => (tree, .error (.error e))
  | .ok files => compileEach directory tree files

end ApiSchema.Build
