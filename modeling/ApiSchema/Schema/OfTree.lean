import ApiSchema.Schema
import ApiSchema.Tree

/-!
Schemas of declarations as written. Every struct, enum and field that is written becomes one of its
own.
-/

namespace ApiSchema

namespace Schema

mutual

def loadType : TypeTree → Loading TypeUse
  | .primitive kind _ => return .primitive kind
  | .optional base _ => do
    let t ← loadType base
    return { t with suffixes := .optional :: t.suffixes }
  | .array base _ => do
    let t ← loadType base
    return { t with suffixes := .array :: t.suffixes }
  | .reference name location => return .ofBase (.reference name location)
  | .struct name members fields location => do
    let members ← loadMembers members
    let fields ← loadFields fields
    return .ofBase (.struct (← addStruct ⟨name, members, fields, location⟩))
  | .enum name values location => do
    let values ← loadValues values
    return .ofBase (.enum (← addEnum ⟨name, values, location⟩))

def loadField : FieldTree → Loading FieldId
  | .mk name type secret notes location => do
    let type ← loadType type
    addField ⟨name, type, secret, notes, location⟩

def loadFields : List FieldTree → Loading (List FieldId)
  | [] => return []
  | field :: rest => do
    let id ← loadField field
    return id :: (← loadFields rest)

def loadMembers : List MemberTree → Loading (List Member)
  | [] => return []
  | .field field :: rest => do
    let id ← loadField field
    return .field id :: (← loadMembers rest)
  | .spread name nameLocation location :: rest =>
    return .spread name nameLocation location :: (← loadMembers rest)

def loadValue : ValueTree → Loading EnumValue
  | .mk text none notes location => return ⟨text, none, notes, location⟩
  | .mk text (some data) notes location => do
    match (← loadType data).base with
    | .struct id => return ⟨text, some id, notes, location⟩
    | _ => return ⟨text, none, notes, location⟩

def loadValues : List ValueTree → Loading (List EnumValue)
  | [] => return []
  | value :: rest => do
    let value ← loadValue value
    return value :: (← loadValues rest)

end

def loadDefinition (d : TypeDeclaration) : Loading Definition := do
  return ⟨d.name, ← loadType d.type, d.notes, d.location⟩

def loadError (e : ErrorDeclaration) : Loading ErrorKind := do
  return ⟨e.name, ← loadType e.data, e.notes, e.location⟩

def loadOperation (f : FunctionDeclaration) : Loading Operation := do
  let members ← loadMembers f.members
  let returns ← loadType f.returns
  return ⟨f.name, members, [], returns, f.notes, f.isGetter, f.location⟩

def loadDeclarations (tree : SchemaTree) : Loading Unit := do
  let definitions ← tree.types.mapM loadDefinition
  let errors ← tree.errors.mapM loadError
  let operations ← tree.functions.mapM loadOperation
  modify ({ · with definitions, errors, operations, warnings := tree.warnings })

def ofTree (tree : SchemaTree) : Schema := (loadDeclarations tree).run {} |>.2

end Schema

end ApiSchema
