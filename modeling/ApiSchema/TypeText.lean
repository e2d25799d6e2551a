import ApiSchema.Schema

/-!
Types as one line of text: a name followed by suffixes, of which the last one is the outermost.
-/

namespace ApiSchema.TypeText

def peelBackwards? : List Char → Option (Suffix × List Char)
  | '?' :: rest => some (.optional, rest)
  | ']' :: '[' :: rest => some (.array, rest)
  | _ => none

/-- The outermost suffix of a type, and the text before it. -/
def peel? (text : String) : Option (Suffix × String) :=
  (peelBackwards? text.toList.reverse).map fun (suffix, rest) =>
    (suffix, String.ofList rest.reverse)

def peelAll : List Char → List Suffix × List Char
  | '?' :: rest =>
    let (suffixes, base) := peelAll rest
    (.optional :: suffixes, base)
  | ']' :: '[' :: rest =>
    let (suffixes, base) := peelAll rest
    (.array :: suffixes, base)
  | base => ([], base)

def baseOf (name : String) : TypeBase :=
  match Primitive.ofName? name with
  | some kind => .primitive kind
  | none => .reference name {}

def read (text : String) : TypeUse :=
  let (suffixes, base) := peelAll text.toList.reverse
  ⟨suffixes, baseOf (String.ofList base.reverse)⟩

end ApiSchema.TypeText
