import ApiSchema.Analysis
import ApiSchema.Document.OfSchema
import ApiSchema.Document.Reader
import ApiSchema.Schema.OfDocument

/-!
Compiled schemas as text: what is written of an analysed schema, and the schema that is read back,
which is analysed anew.
-/

namespace ApiSchema.Artifact

def ending : String := ".sdkgen.json"

inductive WriteError where
  | clash (e : NameClash)
  | numberTooLong
  deriving DecidableEq, Repr

inductive LoadError where
  | malformed
  | invalid (e : AnalysisFailure)
  deriving DecidableEq, Repr

def write (s : Schema) : Except WriteError String :=
  match s.document with
  | .error e => .error (.clash e)
  | .ok document =>
    match document.text? with
    | some text => .ok text
    | none => .error .numberTooLong

def ofDocument? : Option Document → Except LoadError Schema
  | none => .error .malformed
  | some document => (Schema.ofDocument document).analyse.mapError .invalid

def ofValue (value : Value) : Except LoadError Schema := ofDocument? (Document.ofValue? value)

def read (text : String) : Except LoadError Schema := ofDocument? (Document.ofText? text)

end ApiSchema.Artifact
