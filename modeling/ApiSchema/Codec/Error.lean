import ApiSchema.Value.Display

/-!
Why a value is not converted.
-/

namespace ApiSchema

inductive CodecError where
  | mismatch (path expected got : String)
  | null (path : String)
  | unknownType (path type : String)
  deriving DecidableEq, Repr

namespace CodecError

def path : CodecError → String
  | mismatch path .. | null path | unknownType path _ => path

def message : CodecError → String
  | mismatch path expected got =>
    "Invalid type at '" ++ path ++ "', expected " ++ expected ++ ", got " ++ got
  | null path => "Invalid type at '" ++ path ++ "', cannot be null"
  | unknownType path type => "Unknown type '" ++ type ++ "' at '" ++ path ++ "'"

end CodecError

/-- Apart from an error of the value: a number is too long, a time leaves the calendar, a member of
an enum is no pair or its data no record, or types refer to each other without end. -/
inductive CodecFailure where
  | error (e : CodecError)
  | numberTooLong
  | outsideCalendar
  | memberSize
  | memberKind
  | encodedNoRecord
  | decodedNoRecord
  | endless
  deriving DecidableEq, Repr

namespace Codec

abbrev Result := Except CodecFailure

def plain (value : Value) : Result String :=
  match value.plain? with
  | some text => .ok text
  | none => .error .numberTooLong

def described (value : Value) : Result String :=
  match value.described? with
  | some text => .ok text
  | none => .error .numberTooLong

def mismatch {α : Type} (path expected : String) (value : Value) : Result α := do
  let got ← described value
  .error (.error (.mismatch path expected got))

end Codec

end ApiSchema
