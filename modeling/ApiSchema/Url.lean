import ApiSchema.Url.Host

/-!
Absolute URLs and how they are written.
-/

namespace ApiSchema

namespace Url

/-- Paths of unknown schemes can be any text. -/
inductive Path where
  | opaqueText (text : List Char)
  | segments (list : List (List Char))
  deriving DecidableEq, Repr

structure Authority where
  username : List Char := []
  password : List Char := []
  host : Host
  port : Option Nat := none
  deriving DecidableEq, Repr

end Url

structure Url where
  scheme : List Char
  authority : Option Url.Authority
  path : Url.Path
  query : Option (List Char)
  fragment : Option (List Char)
  deriving DecidableEq, Repr

namespace Url

/-- Schemes with an authority, and the port that they have by default. -/
def defaultPorts : List (String × Nat) :=
  [("http", 80), ("https", 443), ("ws", 80), ("wss", 443), ("ftp", 21)]

def defaultPort? (scheme : List Char) : Option Nat := defaultPorts.lookup (String.ofList scheme)

def isFile (scheme : List Char) : Bool := scheme == "file".toList

def isSpecial (scheme : List Char) : Bool := (defaultPort? scheme).isSome || isFile scheme

def userText (a : Authority) : List Char :=
  let password := if a.password.isEmpty then [] else ':' :: a.password
  if a.username.isEmpty && a.password.isEmpty then [] else a.username ++ password ++ ['@']

def Authority.text (a : Authority) : List Char :=
  let port := match a.port with
    | none => []
    | some n => ':' :: digitsOf n
  "//".toList ++ userText a ++ a.host.text ++ port

def Path.text : Path → List Char
  | .opaqueText text => text
  | .segments list => list.flatMap fun segment => '/' :: segment

/-- Two slashes in front of a path without authority would be read as an authority. -/
def guardText : Path → List Char
  | .segments ([] :: _ :: _) => "/.".toList
  | _ => []

def part (mark : Char) : Option (List Char) → List Char
  | none => []
  | some text => mark :: text

def text (u : Url) : String :=
  let start := match u.authority with
    | some a => a.text
    | none => guardText u.path
  String.ofList
    (u.scheme ++ [':'] ++ start ++ u.path.text ++ part '?' u.query ++ part '#' u.fragment)

end Url

end ApiSchema
