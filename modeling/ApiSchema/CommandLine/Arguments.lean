import ApiSchema.Text.Ranges
import ApiSchema.Text.Pieces

/-!
What the words of a command line ask for. Help is given as soon as it is asked for, while unknown
options and surplus words are found out only at the end.
-/

namespace ApiSchema.CommandLine

inductive CommandName where
  | initialise
  | check
  | build
  | compare
  deriving DecidableEq, Repr

def CommandName.text : CommandName → String
  | .initialise => "init"
  | .check => "check"
  | .build => "build"
  | .compare => "compat"

def CommandName.all : List CommandName := [.initialise, .check, .build, .compare]

/-- The new side of a comparison is missing if nothing but a double dash was given for it. -/
inductive Command where
  | initialise (directory : String)
  | check (directory : String)
  | build (directory : String)
  | compare (old new : Option String)
  deriving DecidableEq, Repr

inductive Request where
  | help (topic : Option CommandName)
  | run (command : Command)
  | misuse
  deriving DecidableEq, Repr

inductive Word where
  | value (text : String)
  | dashes
  | help
  | faultyHelp
  | unknown
  deriving DecidableEq, Repr

namespace Word

/-- A minus sign and a number, which may end in a newline. -/
def isNegativeNumber (cs : List Char) : Bool :=
  let body := match cs.reverse with
    | '\n' :: rest => (rest.reverse).drop 1
    | _ => cs.drop 1
  match body.dropWhile Text.isDecimalDigit with
  | [] => !body.isEmpty
  | '.' :: fraction => !fraction.isEmpty && fraction.all Text.isDecimalDigit
  | _ => false

/-- A word that begins with a dash but is no help option: still a value if it is a number or has a
space in it. -/
def ofDashed (text : String) : Word :=
  if isNegativeNumber text.toList || text.toList.contains ' ' then .value text else .unknown

/-- What follows `-h`: any run of that letter asks again, and then no value may be given. -/
def ofShortHelp (more : List Char) : Word :=
  match more.dropWhile (· == 'h') with
  | '=' :: _ | '-' :: _ => .faultyHelp
  | _ => .help

/-- Long options can be cut short. -/
def ofLong (text : String) (body : List Char) : Word :=
  if (body.takeWhile (· != '=')).isPrefixOf "help".toList then
    if body.contains '=' then .faultyHelp else .help
  else ofDashed text

def ofText (text : String) : Word :=
  match text.toList with
  | ['-', '-'] => .dashes
  | '-' :: '-' :: body => ofLong text body
  | '-' :: 'h' :: more => ofShortHelp more
  | '-' :: _ :: _ => ofDashed text
  | _ => .value text

/-- Behind a double dash all words are values. -/
def ofTexts : List String → List Word
  | [] => []
  | text :: rest =>
    if ofText text = .dashes then .dashes :: rest.map .value else ofText text :: ofTexts rest

end Word

/-- The texts given for each value. A double dash goes with the value before it, or else with the one
after it. -/
def groups : List Word → List (List String)
  | [] => []
  | [.dashes] => [["--"]]
  | .dashes :: .value text :: rest => ["--", text] :: groups rest
  | .value text :: .dashes :: rest => [text, "--"] :: groups rest
  | .value text :: rest => [text] :: groups rest
  | _ :: rest => groups rest

/-- Of the texts for a value the first double dash is dropped. -/
def given (texts : List String) : Option String := (texts.erase "--").head?

def commandOf (name : CommandName) (values : List (Option String)) : Option Command :=
  match name, values with
  | .compare, [old, new] => some (.compare old new)
  | .compare, _ => none
  | .initialise, [] => some (.initialise ".")
  | .initialise, [directory] => some (.initialise (directory.getD "."))
  | .check, [] => some (.check ".")
  | .check, [directory] => some (.check (directory.getD "."))
  | .build, [] => some (.build ".")
  | .build, [directory] => some (.build (directory.getD "."))
  | _, _ => none

/-- The option that settles what is asked: the first known one, or else an unknown one. -/
def firstOption : List Word → Option Word
  | [] => none
  | .help :: _ => some .help
  | .faultyHelp :: _ => some .faultyHelp
  | .unknown :: rest => some ((firstOption rest).getD .unknown)
  | _ :: rest => firstOption rest

def commandRequest (name : CommandName) (texts : List String) : Request :=
  let words := Word.ofTexts texts
  match firstOption words with
  | some .help => .help (some name)
  | some _ => .misuse
  | none =>
    match commandOf name ((groups words).map given) with
    | some command => .run command
    | none => .misuse

/-- Options may stand before the name of the command, and only help has a meaning there. -/
def Request.ofArguments : List String → Request
  | [] => .help none
  | text :: rest =>
    match Word.ofText text with
    | .value text =>
      match CommandName.all.find? (·.text == text) with
      | some name => commandRequest name rest
      | none => .misuse
    | .help => .help none
    | .faultyHelp | .dashes => .misuse
    | .unknown =>
      match Request.ofArguments rest with
      | .help topic => if rest.isEmpty then .misuse else .help topic
      | _ => .misuse

end ApiSchema.CommandLine
