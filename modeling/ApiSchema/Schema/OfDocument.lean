import ApiSchema.Document
import ApiSchema.Schema
import ApiSchema.TypeText

/-!
Schemas of documents. Every entry of the table of types becomes a definition; a member of an enum
that names a struct holds the very struct of that entry.
-/

namespace ApiSchema.Schema

def structNames (types : Table TypeDescription) : List String :=
  types.filterMap fun (name, type) => match type with
    | .struct _ => some name
    | _ => none

/-- The numbers of the structs in the order of their entries. -/
def structNumbers (types : Table TypeDescription) : Table StructId :=
  let names := structNames types
  names.zip (List.range names.length)

def notesAt (d : Document) (place : String) : List Note :=
  ((d.notes.get? place).getD []).map fun a => ⟨a, {}⟩

def addTextField (d : Document) (place : Option String) : String × String → Loading FieldId
  | (name, type) =>
    let notes := match place with
      | some place => notesAt d s!"{place}.{name}"
      | none => []
    addField ⟨name, TypeText.read type, false, notes, {}⟩

def describedType (d : Document) (name : String) : TypeDescription → Loading TypeUse
  | .text type => return TypeText.read type
  | .enum members =>
    let value : String × Option String → EnumValue
      | (text, data) => ⟨text, data.bind (structNumbers d.types).get?, [], {}⟩
    return .ofBase (.enum (← addEnum ⟨"", members.map value, {}⟩))
  | .struct fields => do
    let place := if name.isEmpty then none else some s!"type.{name}"
    let fields ← fields.mapM (addTextField d place)
    return .ofBase (.struct (← addStruct ⟨"", [], fields, {}⟩))

def describedOperation (d : Document) (name : String) (s : Signature) : Loading Operation := do
  let args ← s.args.mapM (addTextField d (some s!"fn.{name}"))
  return ⟨name, [], args, TypeText.read s.returns, notesAt d s!"fn.{name}", false, {}⟩

def describedError (d : Document) : String × Option String → ErrorKind
  | (name, data) =>
    ⟨name, (data.map TypeText.read).getD (.primitive .void), notesAt d s!"error.{name}", {}⟩

def describedDefinition (d : Document) : String × TypeDescription → Loading Definition
  | (name, type) => return ⟨name, ← describedType d name type, [], {}⟩

def loadDocument (d : Document) : Loading Unit := do
  let definitions ← d.types.mapM (describedDefinition d)
  let operations ← d.operations.mapM fun (name, s) => describedOperation d name s
  modify ({ · with definitions, operations, errors := d.errors.map (describedError d) })

def ofDocument (d : Document) : Schema := (loadDocument d).run {} |>.2

end ApiSchema.Schema
