import ApiSchema.Analysis.Error
import ApiSchema.Schema.Unfold

/-!
Definitions of one name have to describe the same type.
-/

namespace ApiSchema.Schema

def checkRedeclared (s : Schema) : (earlier : List Definition) → List Definition → Checked Unit
  | _, [] => .ok ()
  | earlier, d :: rest =>
    match earlier.find? (·.name == d.name) with
    | none => checkRedeclared s (earlier ++ [d]) rest
    | some previous =>
      if s.sameType previous.type d.type then checkRedeclared s earlier rest
      else refuse (.redeclaredType d.name d.location previous.location)

def checkRedeclarations (s : Schema) : Checked Unit := s.checkRedeclared [] s.definitions

end ApiSchema.Schema
