import ApiSchema.FileTree
import ApiSchema.Value

/-!
Configuration of projects: where the compiled schemas go, and which files are compiled.
-/

namespace ApiSchema

/-- Why a text is no YAML value: it is malformed, or a scalar in it has no value. -/
inductive YamlError where
  | malformed
  | valueless
  | noTimestamp
  | noTruthValue
  deriving DecidableEq, Repr

/-- A package that gives the value of the first document of a YAML stream. -/
class YamlReader where
  read : String → Except YamlError Value

structure ProjectConfig where
  buildDirectory : String
  sources : List String := []
  deriving DecidableEq, Repr

inductive ConfigFault where
  | malformed
  | noMapping
  | missing (field : String)
  | noText (field : String)
  | noList (field : String)
  deriving DecidableEq, Repr

inductive ConfigError where
  | invalid (file : String) (fault : ConfigFault)
  | notFound (file : String)
  | unreadable (e : FileError)
  deriving DecidableEq, Repr

def ConfigFault.message (file : String) : ConfigFault → String
  | .malformed => "Invalid YAML in " ++ file ++ ": "
  | .noMapping => file ++ ": project config must be a YAML mapping"
  | .missing field => file ++ ": missing required field '" ++ field ++ "'"
  | .noText field => file ++ ": " ++ field ++ " must be a string"
  | .noList field => file ++ ": " ++ field ++ " must be a list"

def ConfigError.message : ConfigError → String
  | .invalid file fault => fault.message file
  | .notFound file => "Project config file not found: " ++ file
  | .unreadable e => "Cannot read project config file: " ++ e.message

/-- Apart from an error of the configuration, a scalar in it has no value, or its file no text. -/
inductive ConfigFailure where
  | error (e : ConfigError)
  | valueless
  | noTimestamp
  | noTruthValue
  | notText
  deriving DecidableEq, Repr

namespace ProjectConfig

def fileName : String := ".sdkgen.yaml"

def readBuildDirectory (value : Value) : Except ConfigFault String :=
  match value.field? "build-directory" with
  | none => .error (.missing "build-directory")
  | some (.string text) => .ok text
  | some _ => .error (.noText "'build-directory'")

def readSources (index : Nat) : List Value → Except ConfigFault (List String)
  | [] => .ok []
  | .string text :: rest => do return text :: (← readSources (index + 1) rest)
  | _ :: _ => .error (.noText ("sources[" ++ index.repr ++ "]"))

def ofValue (value : Value) : Except ConfigFault ProjectConfig := do
  match value with
  | .mapping _ =>
    let buildDirectory ← readBuildDirectory value
    match value.field? "sources" with
    | none => return { buildDirectory }
    | some (.list items) => return { buildDirectory, sources := ← readSources 0 items }
    | some _ => .error (.noList "'sources'")
  | _ => .error .noMapping

def parse [YamlReader] (file text : String) : Except ConfigFailure ProjectConfig :=
  match YamlReader.read text with
  | .error .malformed => .error (.error (.invalid file .malformed))
  | .error .valueless => .error .valueless
  | .error .noTimestamp => .error .noTimestamp
  | .error .noTruthValue => .error .noTruthValue
  | .ok value => (ofValue value).mapError fun fault => .error (.invalid file fault)

def load [YamlReader] (tree : FileTree) (path : FilePath) : Except ConfigFailure ProjectConfig :=
  match tree.readText path with
  | .error (.system ⟨.notFound, _⟩) => .error (.error (.notFound path.text))
  | .error (.system e) => .error (.error (.unreadable e))
  | .error .nullCharacter | .error .notText => .error .notText
  | .ok text => parse path.text text

end ProjectConfig

end ApiSchema
