import ApiSchema.Analysis.Error
import ApiSchema.Schema.Unfold
import ApiSchema.Table

/-!
Names for structs and enums, after the path of declarations that leads to them. A type that gets
the name of an equal one is replaced by it.
-/

namespace ApiSchema

/-- The schema so far, with the holder of each name and the path it was named after. -/
structure Naming where
  schema : Schema
  holders : Table (TypeBase × List String)

abbrev NamingPass := StateT Naming (Except AnalysisFailure)

namespace Naming

def nameOfPath (path : List String) : String := String.join (path.map Text.capitalised)

def update (f : Schema → Schema) : NamingPass Unit :=
  modify fun n => { n with schema := f n.schema }

def giveName (name : String) (s : Schema) : TypeBase → Schema
  | .struct id => s.setStruct id { s.struct id with name }
  | .enum id => s.setEnum id { s.enum id with name }
  | _ => s

def locationOf (s : Schema) : TypeBase → Location
  | .struct id => (s.struct id).location
  | .enum id => (s.enum id).location
  | .reference _ location => location
  | .primitive _ => {}

/-- Names a struct or an enum. Returns the equal type that holds the name already, if there is one;
the type's own parts then need no names. -/
def takeName (path : List String) (base : TypeBase) : NamingPass (Option TypeBase) := do
  let name := nameOfPath path
  update fun s => giveName name s base
  let n ← get
  match n.holders.get? name with
  | none =>
    set { n with holders := n.holders.insert name (base, path) }
    return none
  | some (holder, other) =>
    if n.schema.sameType (.ofBase holder) (.ofBase base) then return some holder
    else
      throw (.semantic (.nameConflict path (locationOf n.schema base) other
        (locationOf n.schema holder)))

/-- Names what is nested in the type of a field; `descend` names what is nested in a base and
returns what stands in its place. -/
def nameField (descend : List String → TypeBase → NamingPass TypeBase) (path : List String)
    (id : FieldId) : NamingPass Unit := do
  let f := (← get).schema.field id
  let base ← descend (path ++ [f.name]) f.type.base
  update fun s =>
    let f := s.field id
    s.setField id { f with type := { f.type with base } }

def nameMember (descend : List String → TypeBase → NamingPass TypeBase) (path : List String) :
    Member → NamingPass Unit
  | .field id => nameField descend path id
  | .spread .. => return

def nameValue (descend : List String → TypeBase → NamingPass TypeBase) (path : List String)
    (v : EnumValue) : NamingPass EnumValue := do
  match v.data with
  | none => return v
  | some id =>
    match ← descend (path ++ [v.text]) (.struct id) with
    | .struct holder => return { v with data := some holder }
    | _ => return v

def nameBase : (fuel : Nat) → List String → TypeBase → NamingPass TypeBase
  | 0, _, _ => throw .endless
  | fuel + 1, path, base => do
    match base with
    | .primitive _ | .reference .. => return base
    | .struct id =>
      match ← takeName path base with
      | some holder => return holder
      | none =>
        let t := (← get).schema.struct id
        t.members.forM (nameMember (nameBase fuel) path)
        t.fields.forM (nameField (nameBase fuel) path)
        return base
    | .enum id =>
      match ← takeName path base with
      | some holder => return holder
      | none =>
        let values ← ((← get).schema.enum id).values.mapM (nameValue (nameBase fuel) path)
        update fun s => s.setEnum id { s.enum id with values }
        return base

def nameType (bound : Nat) (path : List String) (t : TypeUse) : NamingPass TypeUse := do
  let base ← nameBase bound path t.base
  return { t with base }

def nameError (bound : Nat) (e : ErrorKind) : NamingPass ErrorKind := do
  let data ← nameType bound [e.name ++ "Data"] e.data
  return { e with data }

def nameDefinition (bound : Nat) (d : Definition) : NamingPass Definition := do
  let type ← nameType bound [d.name] d.type
  return { d with type }

def nameOperation (bound : Nat) (o : Operation) : NamingPass Operation := do
  o.members.forM (nameMember (nameBase bound) [o.name])
  o.args.forM (nameField (nameBase bound) [o.name])
  let returns ← nameType bound [o.name] o.returns
  return { o with returns }

/-- Names all types below the declarations, error data first. -/
def nameAll : NamingPass Unit := do
  let s := (← get).schema
  let bound := s.nestingBound + 1
  let errors ← s.errors.mapM (nameError bound)
  let definitions ← s.definitions.mapM (nameDefinition bound)
  let operations ← s.operations.mapM (nameOperation bound)
  update ({ · with errors, definitions, operations })

end Naming

def Schema.nameTypes (s : Schema) : Checked Schema := do
  let (_, n) ← (Naming.nameAll).run ⟨s, []⟩
  return n.schema

end ApiSchema
