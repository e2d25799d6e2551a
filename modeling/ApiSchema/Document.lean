import ApiSchema.Annotation
import ApiSchema.Json.Writer

/-!
Flat documents of schemas, which is what a compiled schema is stored as. A document has one table
of named types, one of operations, the errors, and the annotations by the place that they belong
to. Types inside of them are single lines of text.
-/

namespace ApiSchema

inductive TypeDescription where
  | text (type : String)
  /-- The members of an enum, some with the name of the struct that holds their data. -/
  | enum (members : List (String × Option String))
  | struct (fields : Table String)
  deriving DecidableEq, Repr

structure Signature where
  args : Table String
  returns : String
  deriving DecidableEq, Repr

structure Document where
  notes : Table (List Annotation) := []
  /-- Errors with the type of their data, unless they have none. -/
  errors : List (String × Option String) := []
  operations : Table Signature := []
  types : Table TypeDescription := []
  deriving DecidableEq, Repr

namespace Document

def record (members : List (String × Value)) : Value :=
  .mapping (members.map fun (key, item) => (.string key, item))

def textList (texts : List String) : Value := .list (texts.map .string)

def textTable (table : Table String) : Value :=
  record (table.map fun (name, text) => (name, .string text))

def nameOrPair : String × Option String → Value
  | (name, none) => .string name
  | (name, some other) => textList [name, other]

def restValue (m : RestMapping) : Value :=
  record [
    ("bodyVariable", (m.bodyVariable.map .string).getD .null),
    ("headers", .list (m.headers.map fun (header, argument) => textList [header, argument])),
    ("method", .string m.method),
    ("path", .string m.path),
    ("pathVariables", textList m.pathVariables),
    ("queryVariables", textList m.queryVariables)]

/-- An annotation as a kind and a value. What is said about an argument describes it. -/
def annotationValue (a : Annotation) : Value :=
  let (kind, value) := match a with
    | .description text | .argument _ text => ("description", .string text)
    | .throws error => ("throws", .string error)
    | .hidden => ("hidden", .null)
    | .statusCode code => ("statusCode", .int code)
    | .rest mapping => ("rest", restValue mapping)
  record [("type", .string kind), ("value", value)]

def descriptionValue : TypeDescription → Value
  | .text type => .string type
  | .enum members => .list (members.map nameOrPair)
  | .struct fields => textTable fields

def signatureValue (s : Signature) : Value :=
  record [("args", textTable s.args), ("ret", .string s.returns)]

def typeTable (d : Document) : Value :=
  record (d.types.map fun (name, type) => (name, descriptionValue type))

def toValue (d : Document) : Value :=
  record [
    ("annotations", record (d.notes.map fun (place, notes) =>
      (place, .list (notes.map annotationValue)))),
    ("errors", .list (d.errors.map nameOrPair)),
    ("functionTable", record (d.operations.map fun (name, s) => (name, signatureValue s))),
    ("typeTable", d.typeTable)]

/-- The text that a document is stored as, unless a number in it is too long to be written. -/
def text? (d : Document) : Option String := Json.write? .compact d.toValue

end Document

end ApiSchema
