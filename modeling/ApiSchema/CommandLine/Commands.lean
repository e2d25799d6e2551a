import ApiSchema.Build
import ApiSchema.CommandLine.Report
import ApiSchema.Compatibility

/-!
The commands: to set up a project, to check or build its schemas, and to compare two schemas.
-/

namespace ApiSchema.CommandLine

def findDirectory (tree : FileTree) (text : String) : Attempt FilePath := do
  let path := FilePath.ofText text
  if FileTree.hasNull path then throw (.ofAccess .nullCharacter)
  let directory := tree.resolve path
  let found ← (tree.contains? directory).mapError fun e => .ofAccess (.system e)
  if found then return directory else throw (.refused (.noDirectory directory.text))

def configPath (directory : FilePath) : FilePath := directory.join ⟨0, [ProjectConfig.fileName]⟩

def hasConfig (tree : FileTree) (directory : FilePath) : Attempt Bool :=
  (tree.contains? (configPath directory)).mapError fun e => .ofAccess (.system e)

def configTemplate : String := lines [
  "# sdkgen Project Configuration",
  "# Entry files are compiled to <build-directory>/<name>.sdkgen.json.",
  "# Without 'sources', every .sdkgen file in the project is an entry file.",
  "",
  "build-directory: .sdkgen-build"]

def createProject (tree : FileTree) (text : String) : Attempt (FileTree × FilePath) := do
  let directory ← findDirectory tree text
  let file := configPath directory
  if ← hasConfig tree directory then throw (.refused (.projectExists file.text))
  return (← (tree.writeText file configTemplate).mapError .ofAccess, file)

def initialise (tree : FileTree) (text : String) : FileTree × Outcome :=
  match createProject tree text with
  | .error e => (tree, e.outcome [])
  | .ok (tree, file) =>
    (tree, .ok { printed := [s!"Initialized sdkgen project at '{file.text}'."] })

structure Project where
  directory : FilePath
  config : ProjectConfig
  deriving DecidableEq, Repr

def findProject [YamlReader] (tree : FileTree) (text : String) : Attempt Project := do
  let directory ← findDirectory tree text
  if ¬ (← hasConfig tree directory) then throw (.refused (.noProject directory.text))
  let config ← (ProjectConfig.load tree (configPath directory)).mapError .ofConfig
  return { directory, config }

namespace Project

def buildDirectory (p : Project) : FilePath := p.directory.join (.ofText p.config.buildDirectory)

def sourceEnding : String := ".sdkgen"

/-- All source files of a project but those in its build directory, ordered by their paths. -/
def discovered (p : Project) (tree : FileTree) : List FilePath :=
  let files := (tree.below p.directory.segments).map fun (way, _) => p.directory.join ⟨0, way⟩
  let sources := files.filter fun f => f.hasEnding sourceEnding && !f.parents.contains p.buildDirectory
  sources.mergeSort FilePath.le

def sources (p : Project) (tree : FileTree) : List FilePath :=
  if p.config.sources.isEmpty then p.discovered tree
  else p.config.sources.map fun source => p.directory.join (.ofText source)

end Project

def warningLines (schemas : List Schema) : List String :=
  (schemas.flatMap (·.warnings)).map ("Warning: " ++ ·)

/-- The schemas of the files before the first that cannot be compiled. -/
def compileUpTo (tree : FileTree) : List FilePath → List Schema × Option BuildFailure
  | [] => ([], none)
  | file :: rest =>
    match Build.compile tree file with
    | .error e => ([], some e)
    | .ok s =>
      let (schemas, failure) := compileUpTo tree rest
      (s :: schemas, failure)

def noSources : Report := { printed := ["No .sdkgen files found in the project."] }

def checkFiles (tree : FileTree) (files : List FilePath) : Outcome :=
  let (schemas, failure) := compileUpTo tree files
  let printed := s!"Checking {files.length.repr} schema file(s)..." :: warningLines schemas
  match failure with
  | some e => (Interruption.ofBuild e).outcome printed
  | none => .ok { printed := printed ++ ["No issues found."] }

def check [YamlReader] (tree : FileTree) (text : String) : Outcome :=
  match findProject tree text with
  | .error e => e.outcome []
  | .ok project =>
    let files := project.sources tree
    if files.isEmpty then .ok noSources else checkFiles tree files

def buildFiles (tree : FileTree) (files : List FilePath) (directory : FilePath) :
    FileTree × Outcome :=
  let start := s!"Building {files.length.repr} schema file(s)..."
  match Build.run tree files directory with
  | (tree, .error e) => (tree, (Interruption.ofBuild e).outcome [start])
  | (tree, .ok compiled) =>
    let result := s!"Wrote {compiled.length.repr} artifact(s) to '{directory.text}'."
    (tree, .ok { printed := start :: warningLines (compiled.map (·.2)) ++ [result] })

def build [YamlReader] (tree : FileTree) (text : String) : FileTree × Outcome :=
  match findProject tree text with
  | .error e => (tree, e.outcome [])
  | .ok project =>
    let files := project.sources tree
    if files.isEmpty then (tree, .ok noSources)
    else buildFiles tree files project.buildDirectory

def loadSchema (tree : FileTree) : Option String → Attempt Schema
  | none => .error (.failed .missingValue)
  | some text => (Build.load tree (.ofText text)).mapError .ofBuild

def loadBoth (tree : FileTree) (old new : Option String) : Attempt (Schema × Schema) := do
  return (← loadSchema tree old, ← loadSchema tree new)

def compare (tree : FileTree) (old new : Option String) : Outcome :=
  match loadBoth tree old new with
  | .error e => e.outcome []
  | .ok (old, new) =>
    let issues := Compatibility.issues old new
    if issues.isEmpty then .ok { printed := ["No breaking changes."] }
    else
      .ok {
        printed := issues.map (·.message)
        complaint := some (.breakingChanges issues.length) }

def runCommand [YamlReader] (tree : FileTree) : Command → FileTree × Outcome
  | .initialise directory => initialise tree directory
  | .check directory => (tree, check tree directory)
  | .build directory => build tree directory
  | .compare old new => (tree, compare tree old new)

def run [YamlReader] (tree : FileTree) (arguments : List String) : FileTree × Outcome :=
  match Request.ofArguments arguments with
  | .help topic => (tree, .ok { printed := helpLines topic })
  | .misuse => (tree, .ok { complaint := some .misuse })
  | .run command => runCommand tree command

end ApiSchema.CommandLine
