import ApiSchema.Document
import ApiSchema.Schema

/-!
Documents of analysed schemas. Structs and enums enter the table of types in the order in which the
analysis found them, and definitions of other types follow.
-/

namespace ApiSchema

/-- Two types that would share one entry. -/
inductive NameClash where
  | struct (name : String)
  | enum (name : String)
  deriving DecidableEq, Repr

def NameClash.message : NameClash → String
  | .struct name => "Duplicate struct type " ++ name
  | .enum name => "Duplicate enum type " ++ name

namespace Schema

def pairLe (p q : String × String) : Bool := p.1 < q.1 || (p.1 == q.1 && p.2 ≤ q.2)

/-- The headers and the query of a mapping are stored in alphabetical order. -/
def storedNote : Annotation → Annotation
  | .rest m =>
    .rest { m with
      headers := m.headers.mergeSort pairLe
      queryVariables := m.queryVariables.mergeSort fun a b => decide (a ≤ b) }
  | a => a

def fieldTexts (s : Schema) (ids : List FieldId) : Table String :=
  Table.ofEntries (ids.map fun id => ((s.field id).name, s.typeName (s.field id).type))

/-- The descriptions of fields, each with its place. -/
def fieldNotes (s : Schema) (place : String) (ids : List FieldId) : List (String × Annotation) :=
  ids.flatMap fun id =>
    let f := s.field id
    (Note.descriptions f.notes).map fun text => (s!"{place}.{f.name}", .description text)

def enumMembers (s : Schema) (e : Enum) : List (String × Option String) :=
  e.values.map fun v => (v.text, v.data.map fun id => (s.struct id).name)

def addStructEntry (s : Schema) (types : Table TypeDescription) (id : StructId) :
    Except NameClash (Table TypeDescription) :=
  let t := s.struct id
  if types.has t.name then .error (.struct t.name)
  else .ok (types.insert t.name (.struct (s.fieldTexts t.fields)))

def addEnumEntry (s : Schema) (types : Table TypeDescription) (id : EnumId) :
    Except NameClash (Table TypeDescription) :=
  let e := s.enum id
  if types.has e.name then .error (.enum e.name)
  else .ok (types.insert e.name (.enum (s.enumMembers e)))

def addDefinitionEntry (s : Schema) (types : Table TypeDescription) (d : Definition) :
    Table TypeDescription :=
  if d.type.isNested then types else types.insert d.name (.text (s.typeName d.type))

def typeEntries (s : Schema) : Except NameClash (Table TypeDescription) := do
  let types ← s.structOrder.foldlM s.addStructEntry []
  let types ← s.enumOrder.foldlM s.addEnumEntry types
  return s.definitions.foldl s.addDefinitionEntry types

def signature (s : Schema) (o : Operation) : Signature :=
  ⟨s.fieldTexts o.args, s.typeName o.returns⟩

def structNotes (s : Schema) (id : StructId) : List (String × Annotation) :=
  s.fieldNotes s!"type.{(s.struct id).name}" (s.struct id).fields

def operationNotes (s : Schema) (o : Operation) : List (String × Annotation) :=
  s.fieldNotes s!"fn.{o.name}" o.args ++ o.notes.map fun n => (s!"fn.{o.name}", storedNote n.content)

def errorNotes (e : ErrorKind) : List (String × Annotation) :=
  e.notes.map fun n => (s!"error.{e.name}", storedNote n.content)

def placedNotes (s : Schema) : List (String × Annotation) :=
  s.structOrder.flatMap s.structNotes ++ s.operations.flatMap s.operationNotes
    ++ s.errors.flatMap errorNotes

def errorEntry (s : Schema) (e : ErrorKind) : String × Option String :=
  (e.name, if e.data.isPrimitive .void then none else some (s.typeName e.data))

def document (s : Schema) : Except NameClash Document := do
  let types ← s.typeEntries
  return {
    notes := s.placedNotes.foldl (fun table (place, a) => table.append place a) []
    errors := s.errors.map s.errorEntry
    operations := Table.ofEntries (s.operations.map fun o => (o.name, s.signature o))
    types }

end Schema

end ApiSchema
