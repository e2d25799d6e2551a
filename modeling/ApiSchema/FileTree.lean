import ApiSchema.FileTree.Path
import ApiSchema.Text.Quoted

/-!
A tree of files and directories as a value. Reading and writing follow a path segment by segment,
so that what stands in the way decides which error is reported. Links, devices and permissions are
left out.
-/

namespace ApiSchema

inductive FileEntry where
  | file (content : List UInt8)
  | directory
  deriving DecidableEq

inductive FileFault where
  | notFound
  | exists
  | notADirectory
  | isADirectory
  | nameTooLong
  deriving DecidableEq, Repr

structure FileError where
  fault : FileFault
  path : String
  deriving DecidableEq, Repr

def FileFault.text : FileFault → String
  | .notFound => "[Errno 2] No such file or directory"
  | .exists => "[Errno 17] File exists"
  | .notADirectory => "[Errno 20] Not a directory"
  | .isADirectory => "[Errno 21] Is a directory"
  | .nameTooLong => "[Errno 36] File name too long"

def FileError.message (e : FileError) : String := e.fault.text ++ ": " ++ Text.quoted e.path

/-- Why a text cannot be read or written: the system refuses, the path holds a null character, or
the bytes are not text. -/
inductive AccessError where
  | system (e : FileError)
  | nullCharacter
  | notText
  deriving DecidableEq, Repr

/-- Entries are listed by their segments below the root, which itself is not listed. -/
structure FileTree where
  workingDirectory : List String
  entries : List (List String × FileEntry)

namespace FileTree

def get? (t : FileTree) (place : List String) : Option FileEntry :=
  if place.isEmpty then some .directory else t.entries.lookup place

def set (t : FileTree) (place : List String) (entry : FileEntry) : FileTree :=
  { t with entries := (place, entry) :: t.entries.filter (·.1 != place) }

def isDirectory (t : FileTree) (place : List String) : Bool := t.get? place == some .directory

/-- The absolute form of a path, without double dots. -/
def resolve (t : FileTree) (p : FilePath) : FilePath :=
  ⟨1, FilePath.flatten ((if p.isAbsolute then [] else t.workingDirectory) ++ p.segments)⟩

/-- Follows segments from a place that exists. -/
def walk (t : FileTree) : (place : List String) → (segments : List String) →
    Except FileFault (List String)
  | place, [] => .ok place
  | place, s :: rest =>
    if ¬ t.isDirectory place then .error .notADirectory
    else if s = ".." then walk t place.dropLast rest
    else if 255 < s.utf8ByteSize then .error .nameTooLong
    else if (t.get? (place ++ [s])).isNone then .error .notFound
    else walk t (place ++ [s]) rest

def locate (t : FileTree) (p : FilePath) : Except FileFault (List String) :=
  if 4095 < p.text.utf8ByteSize then .error .nameTooLong
  else walk t (if p.isAbsolute then [] else t.workingDirectory) p.segments

/-- A name that is too long cannot even be looked for. -/
def contains? (t : FileTree) (p : FilePath) : Except FileError Bool :=
  match t.locate p with
  | .ok _ => .ok true
  | .error .nameTooLong => .error ⟨.nameTooLong, p.text⟩
  | .error _ => .ok false

def hasNull (p : FilePath) : Bool := p.segments.any fun s => s.toList.contains '\x00'

def readBytes (t : FileTree) (p : FilePath) : Except FileError (List UInt8) :=
  match t.locate p with
  | .error fault => .error ⟨fault, p.text⟩
  | .ok place =>
    match t.get? place with
    | some (.file content) => .ok content
    | some .directory => .error ⟨.isADirectory, p.text⟩
    | none => .error ⟨.notFound, p.text⟩

/-- Every line ends in a newline, however it was ended in the file. -/
def unifyLineEnds : List Char → List Char
  | [] => []
  | '\r' :: '\n' :: rest => '\n' :: unifyLineEnds rest
  | '\r' :: rest => '\n' :: unifyLineEnds rest
  | c :: rest => c :: unifyLineEnds rest

def readText (t : FileTree) (p : FilePath) : Except AccessError String :=
  if hasNull p then .error .nullCharacter
  else
    match t.readBytes p with
    | .error e => .error (.system e)
    | .ok content =>
      match String.fromUTF8? ⟨content.toArray⟩ with
      | some text => .ok (String.ofList (unifyLineEnds text.toList))
      | none => .error .notText

/-- The place that a path names for a new entry: its parent has to be a directory. -/
def target (t : FileTree) (p : FilePath) : Except FileFault (List String) :=
  match t.locate p with
  | .ok place => .ok place
  | .error .notFound =>
    match t.locate p.parent with
    | .ok parent =>
      if t.isDirectory parent then .ok (parent ++ [p.name]) else .error .notADirectory
    | .error fault => .error fault
  | .error fault => .error fault

def writeText (t : FileTree) (p : FilePath) (text : String) : Except AccessError FileTree :=
  if hasNull p then .error .nullCharacter
  else
    match t.target p with
    | .error fault => .error (.system ⟨fault, p.text⟩)
    | .ok place =>
      if t.isDirectory place then .error (.system ⟨.isADirectory, p.text⟩)
      else .ok (t.set place (.file text.toUTF8.data.toList))

/-- A directory that is there already is no error. -/
def makeDirectory (t : FileTree) (p : FilePath) : Except FileError FileTree :=
  match t.locate p with
  | .ok place => if t.isDirectory place then .ok t else .error ⟨.exists, p.text⟩
  | .error .notFound =>
    match t.target p with
    | .ok place => .ok (t.set place .directory)
    | .error fault => .error ⟨fault, p.text⟩
  | .error fault => .error ⟨fault, p.text⟩

/-- Makes directories one after another. Those made before one fails remain. -/
def makeEach (t : FileTree) : List FilePath → FileTree × Except FileError Unit
  | [] => (t, .ok ())
  | p :: rest =>
    match t.makeDirectory p with
    | .ok t => makeEach t rest
    | .error e => (t, .error e)

def makeDirectories (t : FileTree) (p : FilePath) : FileTree × Except AccessError Unit :=
  if hasNull p then (t, .error .nullCharacter)
  else if 4095 < p.text.utf8ByteSize then (t, .error (.system ⟨.nameTooLong, p.text⟩))
  else
    let (t, outcome) := t.makeEach (p.parents.reverse ++ [p])
    (t, outcome.mapError .system)

def below (t : FileTree) (place : List String) : List (List String × FileEntry) :=
  t.entries.filterMap fun (spot, entry) =>
    if place.isPrefixOf spot && place.length < spot.length then
      some (spot.drop place.length, entry)
    else none

end FileTree

end ApiSchema
