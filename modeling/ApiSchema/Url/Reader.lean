import ApiSchema.Text.Pieces
import ApiSchema.Url

/-!
Reading of absolute URLs. It repairs what browsers repair: blanks around the text, line breaks in
it, backslashes, capitals in scheme and host, dots in the path, default ports, and characters that
have to be percent-encoded. In a path, a single dot stands for the directory itself and a double dot
for the one above it, also when the dots are percent-encoded.
-/

namespace ApiSchema.Url

/-- Segments with percent-encoded dots written as dots. -/
def plainDots : List Char → List Char
  | '%' :: '2' :: 'e' :: rest | '%' :: '2' :: 'E' :: rest => '.' :: plainDots rest
  | c :: rest => c :: plainDots rest
  | [] => []

def isSingleDot (segment : List Char) : Bool := plainDots segment == ['.']

def isDoubleDot (segment : List Char) : Bool := plainDots segment == ['.', '.']

def isDriveLetter : List Char → Bool
  | [letter, mark] => letter.isAlpha && (mark == ':' || mark == '|')
  | _ => false

/-- The directory above; a drive is never left. -/
def above (kept : List (List Char)) : List (List Char) :=
  match kept.getLast? with
  | some segment => if isDriveLetter segment then kept else kept.dropLast
  | none => []

/-- The first segment of a file may be a drive, which is written with a colon. -/
def fileSegment (kept : List (List Char)) (segment : List Char) : List Char :=
  if kept.isEmpty && isDriveLetter segment then segment.take 1 ++ [':'] else segment

/-- Segments without dots. When the last one is dots, an empty one remains in its place. -/
def resolveDots (isFile : Bool) : (kept segments : List (List Char)) → List (List Char)
  | kept, [] => kept
  | kept, segment :: rest =>
    let closed (kept : List (List Char)) := if rest.isEmpty then kept ++ [[]] else kept
    if isDoubleDot segment then resolveDots isFile (closed (above kept)) rest
    else if isSingleDot segment then resolveDots isFile (closed kept) rest
    else
      let segment := if isFile then fileSegment kept segment else segment
      resolveDots isFile (kept ++ [segment]) rest

/-- The path of a file does not begin with empty segments. -/
def withoutLeadingEmpty : List (List Char) → List (List Char)
  | [] :: next :: rest => withoutLeadingEmpty (next :: rest)
  | segments => segments

def readSegments (special isFile : Bool) (text : List Char) : List (List Char) :=
  let text := if special then text.map fun c => if c = '\\' then '/' else c else text
  resolveDots isFile [] ((Text.split '/' text).map (escape isPathEscaped))

def tidy (text : List Char) : List Char :=
  let isOuter (c : Char) : Bool := c.toNat ≤ 0x20
  let trimmed := ((text.dropWhile isOuter).reverse.dropWhile isOuter).reverse
  trimmed.filter fun c => !(c == '\t' || c == '\n' || c == '\r')

/-- A letter, and letters, digits and three marks up to a colon. -/
def readScheme? (text : List Char) : Option (List Char × List Char) :=
  let isSchemeChar (c : Char) : Bool := c.isAlphanum || c == '+' || c == '-' || c == '.'
  match text.takeWhile isSchemeChar, text.dropWhile isSchemeChar with
  | first :: more, ':' :: rest =>
    if first.isAlpha then some ((first :: more).map Char.toLower, rest) else none
  | _, _ => none

def cut (mark : Char) (text : List Char) : List Char × Option (List Char) :=
  match text.dropWhile (· != mark) with
  | [] => (text, none)
  | _ :: rest => (text.takeWhile (· != mark), some rest)

def isSlash (special : Bool) (c : Char) : Bool := c == '/' || (special && c == '\\')

/-- The text before the last `@`, and what follows it. -/
def cutUser (text : List Char) : Option (List Char) × List Char :=
  if text.contains '@' then
    let host := (text.reverse.takeWhile (· != '@')).reverse
    (some (text.take (text.length - host.length - 1)), host)
  else (none, text)

/-- Cuts at the first colon that is not between square brackets. -/
def cutPort : (inside : Bool) → List Char → List Char × Option (List Char)
  | _, [] => ([], none)
  | inside, c :: rest =>
    if c = ':' ∧ inside = false then ([], some rest)
    else
      let inside := if c = '[' then true else if c = ']' then false else inside
      let (host, port) := cutPort inside rest
      (c :: host, port)

/-- A port of at most 65535 unless it is left out or the default one. A backslash may follow, which
begins the path. -/
def readPort? (scheme : List Char) : Option (List Char) → Option (Option Nat × List Char)
  | none => some (none, [])
  | some text =>
    let digits := text.takeWhile isDigit
    let rest := text.dropWhile isDigit
    if !(rest.isEmpty || rest.head? == some '\\') || 65535 < digitsValue digits then none
    else if digits.isEmpty || defaultPort? scheme == some (digitsValue digits) then some (none, rest)
    else some (some (digitsValue digits), rest)

/-- An authority without host has neither user nor port; an `@` alone may only end the text. -/
def mayLackHost (user port : Option (List Char)) (ended : Bool) : Bool :=
  port.isNone && match user with
    | none => true
    | some [] => ended
    | some text => text == [':']

def readAuthority? (scheme text : List Char) (ended : Bool) : Option (Authority × List Char) := do
  let (user, rest) := cutUser text
  let (hostText, portText) := cutPort false rest
  if hostText.isEmpty then
    if !isSpecial scheme && mayLackHost user portText ended then return (⟨[], [], .name [], none⟩, [])
    else none
  else
    let host ← if isSpecial scheme then readHost? hostText else readOpaqueHost? hostText
    let (port, left) ← readPort? scheme portText
    let (username, password) := cut ':' (user.getD [])
    let authority : Authority := {
      username := escape isUserEscaped username
      password := escape isUserEscaped (password.getD [])
      host
      port }
    return (authority, left)

def readPathAfter (special : Bool) (text : List Char) : Path :=
  match text with
  | [] => .segments (if special then [[]] else [])
  | c :: rest => .segments (readSegments special false (if isSlash special c then rest else text))

def readHierarchy? (scheme text : List Char) (ended : Bool) :
    Option (Option Authority × Path) := do
  let special := isSpecial scheme
  let ends (c : Char) : Bool := isSlash special c
  let rest := text.dropWhile (!ends ·)
  let ended := ended && rest.isEmpty
  let (authority, left) ← readAuthority? scheme (text.takeWhile (!ends ·)) ended
  return (some authority, readPathAfter special (left ++ rest))

/-- A file with its host, which a path that begins with a drive does not need. -/
def fileOf (host : Host) (text : List Char) : Option Authority × Path :=
  let segments := readSegments true true text
  let host := if (segments.head?.map isDriveLetter).getD false then .name [] else host
  (some ⟨[], [], host, none⟩, .segments (withoutLeadingEmpty segments))

/-- The host of a file; the local one is left out. -/
def readFileHost? (text : List Char) : Option Host :=
  if text.isEmpty then some (.name [])
  else (readHost? text).map fun host => if host == .name "localhost".toList then .name [] else host

/-- Two slashes begin the host of a file, unless a drive follows them. -/
def readFile? (text : List Char) : Option (Option Authority × Path) :=
  match text with
  | a :: b :: rest =>
    if isSlash true a && isSlash true b then
      let host := rest.takeWhile (!isSlash true ·)
      if isDriveLetter host then some (fileOf (.name []) rest)
      else (readFileHost? host).map fun h => fileOf h ((rest.dropWhile (!isSlash true ·)).drop 1)
    else some (fileOf (.name []) (if isSlash true a then b :: rest else text))
  | [a] => some (fileOf (.name []) (if isSlash true a then [] else text))
  | [] => some (fileOf (.name []) [])

/-- What stands between the scheme and the query; `ended` says that nothing follows. -/
def readBody? (scheme text : List Char) (ended : Bool) : Option (Option Authority × Path) :=
  if isFile scheme then readFile? text
  else if isSpecial scheme then readHierarchy? scheme (text.dropWhile (isSlash true)) ended
  else
    match text with
    | '/' :: '/' :: rest => readHierarchy? scheme rest ended
    | '/' :: rest => some (none, .segments (readSegments false false rest))
    | _ => some (none, .opaqueText (escape isControl text))

def read? (text : String) : Option Url := do
  let (scheme, rest) ← readScheme? (tidy text.toList)
  let (rest, fragment) := cut '#' rest
  let (body, query) := cut '?' rest
  let (authority, path) ← readBody? scheme body (query.isNone && fragment.isNone)
  return {
    scheme
    authority
    path
    query := query.map (escape (isQueryEscaped (isSpecial scheme)))
    fragment := fragment.map (escape isFragmentEscaped) }

def normalised? (text : String) : Option String := (read? text).map Url.text

end ApiSchema.Url
