import ApiSchema.Number.Digits
import ApiSchema.Schema

/-!
Comparison of two versions of a schema. Whoever receives a value has to understand everything that
is sent: arguments go from older clients to the newer server, results and error data go back.
Structs that meet a second time are not compared again, which ends the comparison of types that
contain themselves. A scalar type may give way to one whose transmitted values include all of its own.
-/

namespace ApiSchema

namespace Primitive

/-- Values of these kinds are transmitted as text. -/
def stringLike : List Primitive :=
  [.bigint, .uuid, .xml, .date, .datetime, .cpf, .cnpj, .hex, .html, .base64, .bytes, .url, .email,
    .decimal]

def wider : Primitive → List Primitive
  | .uint => [.int, .bigint]
  | .int => [.float, .bigint]
  | .money => [.int, .uint, .bigint]
  | .bytes => [.base64]
  | _ => []

def widensTo (narrow wide : Primitive) : Bool :=
  (wide == .string && stringLike.contains narrow) || (wider narrow).contains wide

end Primitive

/-- Every transmitted value of the first base is one of the second. An enum without data widens to
text. -/
def Schema.widens (s : Schema) (narrow wide : TypeBase) : Bool :=
  match narrow, wide with
  | .enum id, .primitive .string => (s.enum id).values.all (·.data.isNone)
  | .primitive k, .primitive l => k.widensTo l
  | _, _ => false

/-- Changes that break programs built for the older version. -/
inductive Breakage where
  | functionMissing (name : String)
  | requiredAdded
  | wasOptional
  | becameOptional
  | fieldMissing (type : String)
  | valueRemoved (text : String)
  | valueAdded (text : String)
  | incompatible (old new : String)
  deriving DecidableEq, Repr

structure CompatibilityIssue where
  path : String
  breakage : Breakage
  deriving DecidableEq, Repr

def CompatibilityIssue.message (i : CompatibilityIssue) : String :=
  match i.breakage with
  | .functionMissing name =>
    s!"Function '{name}' used to exist, but it is now missing. Add it back."
  | .requiredAdded => i.path ++ " didn't exist before and isn't optional. Make it optional."
  | .wasOptional =>
    i.path ++ " was optional, but now it isn't. If the client sends a null, it will be invalid. "
      ++ "Add the optional annotation back."
  | .becameOptional =>
    i.path ++ " wasn't optional, but now it is. If the client receives a null, it will crash. "
      ++ "Remove the optional annotation."
  | .fieldMissing type =>
    i.path ++ " used to exist with type " ++ type ++ ", but it's now missing. Add it back."
  | .valueRemoved text =>
    "The enum at " ++ i.path ++ " used to accept the value \"" ++ text
      ++ "\" that doesn't exist now. Clients that send it will fail."
  | .valueAdded text =>
    "The enum at " ++ i.path ++ " now has the value \"" ++ text
      ++ "\" that didn't exist before. Clients will crash if they receive it."
  | .incompatible old new =>
    i.path ++ " was " ++ old ++ " and now it is " ++ new ++ ". They are not compatible."

inductive Direction where
  | toServer
  | toClient
  deriving DecidableEq, Repr

structure Transfer where
  direction : Direction
  sender : Schema
  receiver : Schema

/-- Two structs that were compared. Members of enums without data share one struct without fields,
which has no number. -/
structure Meeting where
  direction : Direction
  sent : Option StructId
  received : Option StructId
  deriving DecidableEq, Repr

/-- What a comparison has seen and found so far. -/
structure Findings where
  met : List Meeting := []
  issues : List CompatibilityIssue := []
  deriving DecidableEq, Repr

def Findings.report (f : Findings) (path : String) (breakage : Breakage) : Findings :=
  { f with issues := f.issues ++ [⟨path, breakage⟩] }

def Findings.meet (f : Findings) (m : Meeting) : Findings := { f with met := m :: f.met }

namespace Schema

/-- The type itself or what it refers to; an analysed schema has no reference that leads nowhere. -/
def subject (s : Schema) (t : TypeUse) : TypeUse :=
  match s.unwrap t with
  | .ok u => u
  | .error _ => t

def admitsNull (s : Schema) (t : TypeUse) : Bool := (s.subject t).isOptional

def dataFields (s : Schema) : Option StructId → List Field
  | none => []
  | some id => (s.struct id).fields.map s.field

def suffixCount (s : Schema) : Nat :=
  let count (uses : List TypeUse) := total (uses.map (·.suffixes.length))
  count (s.definitions.map (·.type)) + count (s.errors.map (·.data))
    + count (s.operations.map (·.returns)) + count (s.fields.toList.map (·.type))

end Schema

def lastField? (fields : List Field) (name : String) : Option Field :=
  fields.reverse.find? (·.name == name)

def lastValue? (values : List EnumValue) (text : String) : Option EnumValue :=
  values.reverse.find? (·.text == text)

namespace Transfer

def oldAndNew (x : Transfer) (sent received : String) : String × String :=
  match x.direction with
  | .toServer => (sent, received)
  | .toClient => (received, sent)

def incompatibility (x : Transfer) (sent received : TypeUse) : Breakage :=
  let (old, new) := x.oldAndNew (x.sender.typeName sent) (x.receiver.typeName received)
  .incompatible old new

/-- The sender may send a null that the receiver does not expect. -/
def unexpectedNull (x : Transfer) : Breakage :=
  match x.direction with
  | .toServer => .wasOptional
  | .toClient => .becameOptional

/-- The receiver requires a field that the sender does not know. -/
def missingField (x : Transfer) (type : TypeUse) : Breakage :=
  match x.direction with
  | .toServer => .requiredAdded
  | .toClient => .fieldMissing (x.receiver.typeName (x.receiver.subject type))

def unknownValue (x : Transfer) (text : String) : Breakage :=
  match x.direction with
  | .toServer => .valueRemoved text
  | .toClient => .valueAdded text

abbrev Comparison := Findings → (path : String) → (sent received : TypeUse) → Findings

def compareField (x : Transfer) (compare : Comparison) (path : String) (sent : List Field)
    (f : Findings) (received : Field) : Findings :=
  let path := s!"{path}.{received.name}"
  match lastField? sent received.name with
  | some field => compare f path field.type received.type
  | none =>
    if x.receiver.admitsNull received.type then f else f.report path (x.missingField received.type)

def compareStructs (x : Transfer) (compare : Comparison) (f : Findings) (path : String)
    (sent received : Option StructId) : Findings :=
  let meeting := ⟨x.direction, sent, received⟩
  if f.met.contains meeting then f
  else
    (x.receiver.dataFields received).foldl
      (x.compareField compare path (x.sender.dataFields sent)) (f.meet meeting)

def compareValue (x : Transfer) (compare : Comparison) (path : String) (received : List EnumValue)
    (f : Findings) (sent : EnumValue) : Findings :=
  match lastValue? received sent.text with
  | some value => x.compareStructs compare f s!"{path}.{sent.text}" sent.data value.data
  | none => f.report path (x.unknownValue sent.text)

def compareBases (x : Transfer) (compare : Comparison) (f : Findings) (path : String)
    (sent received : TypeBase) : Findings :=
  match sent, received with
  | .struct a, .struct b => x.compareStructs compare f path (some a) (some b)
  | .enum a, .enum b =>
    (x.sender.enum a).values.foldl (x.compareValue compare path (x.receiver.enum b).values) f
  | .primitive k, .primitive l =>
    if k == l || k.widensTo l then f
    else f.report path (x.incompatibility (.ofBase sent) (.ofBase received))
  | _, _ =>
    if x.sender.widens sent received then f
    else f.report path (x.incompatibility (.ofBase sent) (.ofBase received))

/-- Compares types from outside to inside, where `compare` is used for what is inside. -/
def compareStep (x : Transfer) (compare : Comparison) : Comparison := fun f path sent received =>
  let sent := x.sender.subject sent
  let received := x.receiver.subject received
  match sent.suffixes, received.suffixes with
  | .optional :: inner, .optional :: expected =>
    compare f path ⟨inner, sent.base⟩ ⟨expected, received.base⟩
  | _, .optional :: expected => compare f path sent ⟨expected, received.base⟩
  | .optional :: inner, _ =>
    compare (f.report path x.unexpectedNull) path ⟨inner, sent.base⟩ received
  | .array :: inner, .array :: expected =>
    compare f (path ++ "[]") ⟨inner, sent.base⟩ ⟨expected, received.base⟩
  | [], [] => x.compareBases compare f path sent.base received.base
  | _, _ => f.report path (x.incompatibility sent received)

def compareWithin (x : Transfer) : (fuel : Nat) → Comparison
  | 0 => fun f _ _ _ => f
  | fuel + 1 => x.compareStep (compareWithin x fuel)

/-- Between two meetings of structs only suffixes are taken off, and there are finitely many
meetings. -/
def bound (x : Transfer) : Nat :=
  ((x.sender.structs.size + 1) * (x.receiver.structs.size + 1) + 1)
    * (x.sender.suffixCount + x.receiver.suffixCount + 1)

def compare (x : Transfer) : Comparison := x.compareWithin x.bound

end Transfer

namespace Compatibility

def compareArgument (old new : Schema) (o : Operation) (f : Findings) (received : Field) :
    Findings :=
  let x : Transfer := ⟨.toServer, old, new⟩
  x.compareField x.compare s!"{o.name}.args" (o.args.map old.field) f received

def compareOperation (old new : Schema) (f : Findings) (o : Operation) : Findings :=
  match new.operations.reverse.find? (·.name == o.name) with
  | none => f.report o.name (.functionMissing o.name)
  | some p =>
    let x : Transfer := ⟨.toClient, new, old⟩
    let f := x.compare f s!"{o.name}.ret" p.returns o.returns
    (p.args.map new.field).foldl (compareArgument old new o) f

def compareError (old new : Schema) (f : Findings) (e : ErrorKind) : Findings :=
  match new.errors.reverse.find? (·.name == e.name) with
  | none => f
  | some other =>
    let x : Transfer := ⟨.toClient, new, old⟩
    x.compare f s!"{e.name}.data" other.data e.data

/-- All changes from an old to a new schema that break what was built for the old one. -/
def issues (old new : Schema) : List CompatibilityIssue :=
  let f := old.operations.foldl (compareOperation old new) {}
  (old.errors.foldl (compareError old new) f).issues

end Compatibility

end ApiSchema
