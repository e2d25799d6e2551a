import ApiSchema.Text.Pieces

/-!
Paths of files. Empty and single-dot segments say nothing and are left out; double dots are kept
until a path is resolved. Two slashes in front stay two, while more than two count as one.
-/

namespace ApiSchema

structure FilePath where
  slashes : Nat
  segments : List String
  deriving DecidableEq, Repr, Inhabited

namespace FilePath

def leadingSlashes (cs : List Char) : Nat :=
  let count := (cs.takeWhile (· == '/')).length
  if count ≤ 2 then count else 1

def ofText (text : String) : FilePath :=
  let cs := text.toList
  let pieces := (Text.split '/' cs).map String.ofList
  ⟨leadingSlashes cs, pieces.filter fun p => p != "" && p != "."⟩

def isAbsolute (p : FilePath) : Bool := p.slashes != 0

def text (p : FilePath) : String :=
  if p.isAbsolute then String.ofList (List.replicate p.slashes '/') ++ "/".intercalate p.segments
  else if p.segments.isEmpty then "."
  else "/".intercalate p.segments

def parent (p : FilePath) : FilePath := { p with segments := p.segments.dropLast }

def parents (p : FilePath) : List FilePath :=
  (List.range p.segments.length).reverse.map fun n => { p with segments := p.segments.take n }

def join (base p : FilePath) : FilePath :=
  if p.isAbsolute then p else { base with segments := base.segments ++ p.segments }

def name (p : FilePath) : String := p.segments.getLast?.getD ""

def hasEnding (p : FilePath) (ending : String) : Bool := ending.toList.isSuffixOf p.name.toList

/-- The name up to its last dot, if that dot is neither its first nor its last character. -/
def stem (p : FilePath) : String :=
  let cs := p.name.toList
  let extension := cs.reverse.takeWhile (· != '.')
  let before := cs.length - extension.length - 1
  if extension.length < cs.length ∧ 0 < before ∧ ¬ extension.isEmpty then
    String.ofList (cs.take before)
  else p.name

/-- Segments without double dots: each takes back the segment before it. -/
def flatten (segments : List String) : List String :=
  segments.foldl (fun kept s => if s = ".." then kept.dropLast else kept ++ [s]) []

def segmentsLe : List String → List String → Bool
  | [], _ => true
  | _ :: _, [] => false
  | s :: rest, t :: more => s < t || (s == t && segmentsLe rest more)

def le (p q : FilePath) : Bool := segmentsLe p.segments q.segments

end FilePath

end ApiSchema
