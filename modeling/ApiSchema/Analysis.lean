import ApiSchema.Analysis.Visits
import ApiSchema.Analysis.Naming
import ApiSchema.Analysis.Notes
import ApiSchema.Analysis.Recursion
import ApiSchema.Analysis.Redeclaration
import ApiSchema.Analysis.Secrecy
import ApiSchema.Analysis.Spreading

/-!
The analysis of a schema: ten passes in a fixed order, of which the first fault ends it.
-/

namespace ApiSchema.Schema

/-- Every schema knows the error `Fatal`. -/
def addFatal (s : Schema) : Schema :=
  if s.errors.any (·.name == "Fatal") then s
  else { s with errors := s.errors ++ [⟨"Fatal", .primitive .void, [], {}⟩] }

def analyse (s : Schema) : Checked Schema := do
  let s := s.addFatal
  s.checkRedeclarations
  let s ← s.nameTypes
  s.checkReferences
  s.checkSecrets
  let s ← s.expandSpreads
  s.checkEmptiness
  s.checkRecursions
  let s := s.collectTypes
  s.checkNotes
  s.checkRepetition
  return s

end ApiSchema.Schema
