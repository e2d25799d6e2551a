import ApiSchema.Analysis.Error
import ApiSchema.Schema.Walk

/-!
Annotations stand where they have a meaning, and a REST mapping binds every argument of its
operation.
-/

namespace ApiSchema.Schema

def restKinds : List Primitive :=
  [.bool, .int, .uint, .bigint, .float, .string, .date, .datetime, .money, .cpf, .cnpj, .uuid,
    .hex, .base64]

def isRestType (s : Schema) (t : TypeUse) : Checked Bool :=
  match s.unwrap t with
  | .error e => .error (.unresolved e)
  | .ok ⟨[], .primitive kind⟩ => .ok (restKinds.contains kind)
  | .ok ⟨[], .enum _⟩ => .ok true
  | .ok _ => .ok false

def required (t : TypeUse) : TypeUse :=
  match t.suffixes with
  | .optional :: suffixes => { t with suffixes }
  | _ => t

def hasRepeats : List String → Bool
  | [] => false
  | name :: rest => rest.contains name || hasRepeats rest

/-- A variable of a mapping is an argument of a type that can be written into its place. -/
def checkRestVariable (s : Schema) (args : List Field) (m : RestMapping) (location : Location)
    (name : String) : Checked Unit :=
  match args.find? (·.name == name) with
  | none => refuse (.restUnknownArgument name location)
  | some arg =>
    if m.pathVariables.contains name && arg.type.isOptional then
      refuse (.restOptionalPath name location)
    else do
      if ← s.isRestType (required arg.type) then return
      else refuse (.restUnsuitable name (s.typeName arg.type) location)

def checkRestArgument (m : RestMapping) (bound : List String) (location : Location)
    (arg : Field) : Checked Unit :=
  if !bound.contains arg.name && m.bodyVariable != some arg.name then
    refuse (.restMissing arg.name location)
  else if m.method == "GET" && arg.secret
      && (m.pathVariables.contains arg.name || m.queryVariables.contains arg.name) then
    refuse (.restSecret location)
  else .ok ()

def checkRest (s : Schema) (o : Operation) (m : RestMapping) (location : Location) :
    Checked Unit := do
  let bound := m.pathVariables ++ m.queryVariables ++ m.headerVariables
  let args := o.args.map s.field
  if hasRepeats bound then refuse (.restRepeats location)
  bound.forM (s.checkRestVariable args m location)
  match m.bodyVariable with
  | none => pure ()
  | some name =>
    if args.any (·.name == name) then pure () else refuse (.restUnknownArgument name location)
  args.forM (checkRestArgument m bound location)
  if m.method == "GET" && o.returns.isPrimitive .void then refuse (.restReturnsNothing location)

def checkDescription (n : Note) : Checked Unit :=
  match n.content with
  | .description _ => .ok ()
  | other => refuse (.misplaced other.keyword n.location)

def checkErrorNote (n : Note) : Checked Unit :=
  match n.content with
  | .statusCode code =>
    if 100 ≤ code ∧ code ≤ 599 then .ok () else refuse (.statusCodeRange code n.location)
  | _ => checkDescription n

def checkOperationNote (s : Schema) (o : Operation) (n : Note) : Checked Unit :=
  match n.content with
  | .throws error =>
    if s.errors.any (·.name == error) then .ok () else refuse (.unknownError error n.location)
  | .rest mapping => s.checkRest o mapping n.location
  | .hidden => .ok ()
  | _ => checkDescription n

def checkVisitNotes (s : Schema) : Visit → Checked Unit
  | .error e => e.notes.forM checkErrorNote
  | .definition d => d.notes.forM checkDescription
  | .operation o => o.notes.forM (s.checkOperationNote o)
  | .field id => (s.field id).notes.forM checkDescription
  | .value v => v.notes.forM checkDescription
  | _ => .ok ()

def checkNotes (s : Schema) : Checked Unit := s.walk.visits.forM s.checkVisitNotes

end ApiSchema.Schema
