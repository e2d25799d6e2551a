import ApiSchema.Table
import ApiSchema.Text.Blank
import ApiSchema.Text.Case
import ApiSchema.Text.Pieces
import ApiSchema.Text.Word

/-!
Mappings of operations onto HTTP endpoints, and the text they are written in: a method, a path with
an optional query, and groups that bind headers and the body.
-/

namespace ApiSchema

structure RestMapping where
  method : String
  path : String
  pathVariables : List String
  queryVariables : List String
  /-- Header names in small letters with the argument that each is bound to. -/
  headers : Table String
  bodyVariable : Option String
  deriving DecidableEq, Repr, Inhabited

def RestMapping.headerVariables (m : RestMapping) : List String := m.headers.map (·.2)

inductive RestError where
  | unsupportedMethod (method : String)
  | invalidPath
  | invalidQuery
  deriving DecidableEq, Repr

def RestError.message : RestError → String
  | .unsupportedMethod method => "Unsupported method '" ++ method ++ "'"
  | .invalidPath => "Invalid path"
  | .invalidQuery => "Invalid querystring on path"

namespace Rest

def methods : List String := ["GET", "POST", "PUT", "DELETE", "PATCH"]

def readVariable (cs : List Char) : Option (String × List Char) :=
  match cs with
  | '\x7b' :: rest =>
    match rest.takeWhile Text.isWord, rest.dropWhile Text.isWord with
    | [], _ => none
    | name, '\x7d' :: rest => some (String.ofList name, rest)
    | _, _ => none
  | _ => none

def variableNames (cs : List Char) : List String :=
  (Text.occurrences readVariable cs).map (·.1)

def isVariable (piece : List Char) : Bool :=
  match readVariable piece with
  | some (_, []) => true
  | _ => false

def isQuery (query : List Char) : Bool := (Text.split '&' query).all isVariable

/-- Separators and blanks cannot be part of a header name. -/
def isHeaderChar (c : Char) : Bool :=
  !("()<>@,;:\\\"/[]?=\x7b\x7d".toList.contains c) && !Text.isBlank c

def readClosedVariable (cs : List Char) : Option String :=
  match readVariable cs with
  | some (name, ']' :: _) => some name
  | _ => none

/-- A group `[header Name: {variable}]` at the front. -/
def header? (cs : List Char) : Option (String × String) := do
  let rest ← Text.after? "[header ".toList cs
  let name := rest.takeWhile isHeaderChar
  if name.isEmpty then none
  else
    let rest ← Text.after? ": ".toList (rest.dropWhile isHeaderChar)
    let argument ← readClosedVariable rest
    return (Text.lower (String.ofList name), argument)

/-- A group `[body {variable}]` at the front. -/
def body? (cs : List Char) : Option String := do
  let rest ← Text.after? "[body ".toList cs
  readClosedVariable rest

end Rest

/-- Reads a mapping. Text behind the path that is no group is skipped; of two headers with one name
the later argument counts, and of two bodies the first. -/
def RestMapping.parse (text : String) : Except RestError RestMapping :=
  let pieces := Text.split ' ' text.toList
  let method := Text.upper (String.ofList (pieces.headD []))
  if ¬ Rest.methods.contains method then .error (.unsupportedMethod method)
  else
    match pieces with
    | _ :: ('/' :: target) :: groups =>
      let target := '/' :: target
      let path := target.takeWhile (· != '?')
      let query := (target.dropWhile (· != '?')).drop 1
      let remaining := Text.join ' ' groups
      if target.contains '?' && !Rest.isQuery query then .error .invalidQuery
      else
        .ok {
          method
          path := String.ofList path
          pathVariables := Rest.variableNames path
          queryVariables := Rest.variableNames query
          headers := Table.ofEntries (Text.occurrences Rest.header? remaining)
          bodyVariable := (Text.occurrences Rest.body? remaining).head? }
    | _ => .error .invalidPath

end ApiSchema
