import ApiSchema.Analysis.Error
import ApiSchema.Number.Digits
import ApiSchema.Schema

/-!
No operation returns a secret field, however far behind its return type.
-/

namespace ApiSchema

/-- A struct or a reference that the search is inside of. Each is entered once on a path. -/
inductive Entered where
  | struct (id : StructId)
  | reference (name : String) (location : Location)
  deriving DecidableEq, Repr

namespace Schema

/-- The most steps of a path that enters nothing twice. -/
def searchBound (s : Schema) : Nat :=
  let members := total (s.structs.toList.map fun t => t.members.length)
  2 * (s.structs.size + s.fields.size + s.definitions.length + s.operations.length + members) + 4

/-- Refuses a secret field; `descend` searches a base behind the names that lead to it. -/
def checkSecretField (s : Schema) (descend : List String → TypeBase → Checked Unit)
    (path : List String) (id : FieldId) : Checked Unit :=
  let f := s.field id
  if f.secret then refuse (.secretReturned (path ++ [f.name]) f.location)
  else descend (path ++ [f.name]) f.type.base

def checkSecretMember (s : Schema) (descend : List String → TypeBase → Checked Unit)
    (path : List String) : Member → Checked Unit
  | .field id => checkSecretField s descend path id
  | .spread name nameLocation _ => descend path (.reference name nameLocation)

/-- Searches a base for secret fields, on paths of at most `fuel` steps. -/
def checkSecretBase (s : Schema) : (fuel : Nat) → List Entered → (path : List String) → TypeBase →
    Checked Unit
  | 0, _, _, _ => .ok ()
  | fuel + 1, entered, path, base =>
    match base with
    | .primitive _ => .ok ()
    | .reference name location =>
      if entered.contains (.reference name location) then .ok ()
      else
        match s.definition? name with
        | none => .ok ()
        | some d => checkSecretBase s fuel (.reference name location :: entered) path d.type.base
    | .struct id =>
      if entered.contains (.struct id) then .ok ()
      else do
        let descend := checkSecretBase s fuel (.struct id :: entered)
        (s.struct id).members.forM (checkSecretMember s descend path)
        (s.struct id).fields.forM (checkSecretField s descend path)
    | .enum id =>
      (s.enum id).values.forM fun v =>
        match v.data with
        | none => .ok ()
        | some id => checkSecretBase s fuel entered path (.struct id)

def checkSecrets (s : Schema) : Checked Unit :=
  s.operations.forM fun o =>
    s.checkSecretBase s.searchBound [] [o.name ++ "(...)"] o.returns.base

end Schema

end ApiSchema
