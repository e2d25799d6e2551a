import ApiSchema.Build.Error
import ApiSchema.CommandLine.Arguments
import ApiSchema.Config

/-!
What a command tells its user, and the help on the commands on lines of at most 78 characters.
-/

namespace ApiSchema.CommandLine

def lines (texts : List String) : String := String.join (texts.map (· ++ "\n"))

def helpOption : List String := ["", "options:", "  -h, --help  show this help message and exit"]

def generalUsage : String := "usage: sdkgen [-h] COMMAND ..."

def generalHelp : List String :=
  [generalUsage, "", "sdkgen - API schema compiler", "",
   "positional arguments:",
   "  COMMAND",
   "    init      Initialize a new sdkgen project",
   "    check     Check the schema files of a project",
   "    build     Compile the schema files of a project",
   "    compat    Report breaking changes between two schema versions"] ++ helpOption

def directoryHelp (name : CommandName) (summary purpose : String) : List String :=
  ["usage: sdkgen " ++ name.text ++ " [-h] [directory]", "", summary, "",
   "positional arguments:",
   "  directory   " ++ purpose ++ " (default: current",
   "              directory)"] ++ helpOption

def compareHelp : List String :=
  ["usage: sdkgen compat [-h] old new", "",
   "Compare a new schema against the one existing clients were built with. Each",
   "schema is a .sdkgen source file or a compiled .sdkgen.json artifact.", "",
   "positional arguments:",
   "  old         Schema that existing clients were built against",
   "  new         Schema about to replace it"] ++ helpOption

def helpLines : Option CommandName → List String
  | none => generalHelp
  | some .initialise =>
    directoryHelp .initialise "Create a .sdkgen.yaml project configuration in a directory."
      "Directory to initialize the project in"
  | some .check =>
    directoryHelp .check "Parse and analyse schema files without writing artifacts."
      "Directory containing the sdkgen project"
  | some .build =>
    directoryHelp .build "Compile schema files into JSON artifacts in the build directory."
      "Directory containing the sdkgen project"
  | some .compare => compareHelp

inductive CommandError where
  | noDirectory (directory : String)
  | projectExists (file : String)
  | noProject (directory : String)
  | config (e : ConfigError)
  | build (e : BuildError)
  deriving DecidableEq, Repr

def CommandError.message : CommandError → String
  | .noDirectory directory => s!"directory '{directory}' does not exist."
  | .projectExists file => s!"project already exists at '{file}'."
  | .noProject directory =>
    s!"no sdkgen project found at '{directory}'. Run 'sdkgen init' to initialize a project."
  | .config e => e.message
  | .build e => e.message

/-- A complaint goes to the error output and makes the command fail. -/
inductive Complaint where
  | misuse
  | error (e : CommandError)
  | breakingChanges (count : Nat)
  deriving DecidableEq, Repr

def Complaint.text : Complaint → String
  | .misuse => lines [generalUsage]
  | .error e => lines ["Error: " ++ e.message]
  | .breakingChanges count => lines [s!"Found {count.repr} breaking change(s)."]

structure Report where
  printed : List String := []
  complaint : Option Complaint := none
  deriving DecidableEq, Repr

namespace Report

def output (r : Report) : String := lines r.printed

def errorOutput (r : Report) : String := (r.complaint.map Complaint.text).getD ""

def exitCode (r : Report) : Nat :=
  match r.complaint with
  | none => 0
  | some .misuse => 2
  | some _ => 1

end Report

/-- Failures that no report tells of. -/
inductive CommandFailure where
  | build (e : BuildFailure)
  | config (e : ConfigFailure)
  | inaccessible (e : AccessError)
  | missingValue
  deriving DecidableEq, Repr

inductive Interruption where
  | refused (e : CommandError)
  | failed (e : CommandFailure)
  deriving DecidableEq, Repr

abbrev Attempt := Except Interruption

abbrev Outcome := Except CommandFailure Report

/-- The report of a command that has printed some lines before it ended early. -/
def Interruption.outcome (printed : List String) : Interruption → Outcome
  | .refused e => .ok { printed, complaint := some (.error e) }
  | .failed e => .error e

namespace Interruption

def ofBuild : BuildFailure → Interruption
  | .error e => .refused (.build e)
  | e => .failed (.build e)

def ofConfig : ConfigFailure → Interruption
  | .error e => .refused (.config e)
  | e => .failed (.config e)

def ofAccess (e : AccessError) : Interruption := .failed (.inaccessible e)

end Interruption

end ApiSchema.CommandLine
