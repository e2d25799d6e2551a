import ApiSchema.Base64
import ApiSchema.Codec.Error
import ApiSchema.Json.Reader
import ApiSchema.Text.Pieces

/-!
Scalar types of the codec. Most of them have one form on both sides of a transmission; bytes, large
and decimal numbers, dates and times are transmitted as text. URLs are left to a package.
-/

namespace ApiSchema

/-- A package that gives the normal form of a URL, and none of another text. -/
class UrlNormaliser where
  normal? : String → Option String

/-- The package leaves its own output as it is. -/
def UrlNormaliser.Stable (urls : UrlNormaliser) : Prop :=
  ∀ text normal, urls.normal? text = some normal → urls.normal? normal = some normal

namespace Codec

inductive Scalar where
  | text | json | bool | url | int | uint | float | money | hex | uuid | base64 | void
  | bytes | bigint | decimal | date | datetime
  deriving DecidableEq, Repr

def scalarNames : List (String × Scalar) :=
  [("string", .text), ("email", .text), ("phone", .text), ("html", .text), ("xml", .text),
    ("cpf", .text), ("cnpj", .text), ("json", .json), ("bool", .bool), ("url", .url),
    ("int", .int), ("uint", .uint), ("float", .float), ("money", .money), ("hex", .hex),
    ("uuid", .uuid), ("base64", .base64), ("void", .void), ("bytes", .bytes), ("bigint", .bigint),
    ("decimal", .decimal), ("date", .date), ("datetime", .datetime)]

def Scalar.ofName? (name : String) : Option Scalar := scalarNames.lookup name

def isHexDigit (c : Char) : Bool := (Json.hexValue? c).isSome

def isHex (cs : List Char) : Bool := cs.length % 2 == 0 && cs.all isHexDigit

def isUuid (cs : List Char) : Bool :=
  let groups := Text.split '-' cs
  groups.map (·.length) == [8, 4, 4, 4, 12] && groups.all (·.all isHexDigit)

def lowered (text : String) : String := String.ofList (text.toList.map Char.toLower)

def isIntegerText (cs : List Char) : Bool :=
  let digits := if cs.head? = some '-' then cs.drop 1 else cs
  !digits.isEmpty && digits.all isDigit

/-- An integer, and at most one point with digits behind it. -/
def isDecimalText (cs : List Char) : Bool :=
  match cs.dropWhile (· != '.') with
  | [] => isIntegerText cs
  | _ :: fraction =>
    isIntegerText (cs.takeWhile (· != '.')) && !fraction.isEmpty && fraction.all isDigit

/-- The whole number that a number is; truth values are none. -/
def wholeNumber? : Value → Option Int
  | .int n => some n
  | .float x => x.toInt?
  | _ => none

def greatestInt : Int := 2147483647

def leastInt : Int := -2147483648

/-- The value that transmission as JSON text makes of a value. -/
def jsonForm? (value : Value) : Option Value := (Json.write? .wide value).bind Json.read?

/-- A value in the form that both sides share; `none` for a value of another type. Numbers keep
their kind. -/
def sharedForm? [UrlNormaliser] (s : Scalar) (value : Value) : Option Value :=
  match s, value with
  | .void, _ => some .null
  | .json, value => jsonForm? value
  | .bool, .bool b => some (.bool b)
  | .text, .string text => some (.string text)
  | .hex, .string text => if isHex text.toList then some (.string (lowered text)) else none
  | .uuid, .string text => if isUuid text.toList then some (.string (lowered text)) else none
  | .base64, .string text => (Base64.decode? text.toList).map fun _ => .string text
  | .url, .string text => (UrlNormaliser.normal? text).map .string
  | .int, value =>
    (wholeNumber? value).bind fun n => if leastInt ≤ n ∧ n ≤ greatestInt then some value else none
  | .uint, value =>
    (wholeNumber? value).bind fun n => if 0 ≤ n ∧ n ≤ greatestInt then some value else none
  | .money, value => (wholeNumber? value).map fun _ => value
  | .float, .int n => some (.int n)
  | .float, .float x => some (.float x)
  | _, _ => none

def decimalOf? : Value → Option Decimal
  | .int n => some (.ofInt n)
  | .float (.finite negative mantissa exponent) =>
    some (.ofNumeral (Binary64.finite negative mantissa exponent).text.toList)
  | .string text => if isDecimalText text.toList then some (.ofNumeral text.toList) else none
  | _ => none

def isTooLong : Value → Bool
  | .int n => exceedsDigitLimit (digitsOf n.natAbs).length
  | .string text => exceedsDigitLimit (text.toList.filter isDigit).length
  | _ => false

def timestampOf? : Value → Option Timestamp
  | .string text => Timestamp.ofText? text.toList
  | _ => none

def dateOf? : Value → Option Date
  | .timestamp t => some t.date
  | .date d => some d
  | .string text => Date.ofText? text.toList
  | _ => none

def orMismatch {α : Type} (path expected : String) (value : Value) : Option α → Result α
  | some a => .ok a
  | none => mismatch path expected value

def universal (t : Timestamp) : Result Timestamp :=
  match t.toUniversal? with
  | some t => .ok t
  | none => .error .outsideCalendar

def encodeScalar [UrlNormaliser] (path name : String) (s : Scalar) (value : Value) : Result Value :=
  match s with
  | .bytes =>
    match value with
    | .bytes content | .buffer content =>
      .ok (.string (String.ofList (Base64.encode content)))
    | _ => mismatch path name value
  | .bigint =>
    match value with
    | .int n =>
      match Json.intText? n with
      | some text => .ok (.string text)
      | none => .error .numberTooLong
    | _ => mismatch path name value
  | .decimal =>
    match value with
    | .decimal d => if d.isFinite then .ok (.string d.plainText) else mismatch path name value
    | .int n =>
      if isTooLong (.int n) then .error .numberTooLong
      else .ok (.string (Decimal.ofInt n).plainText)
    | value => do
      let d ← orMismatch path name value (decimalOf? value)
      return .string d.plainText
  | .date => do
    let d ← orMismatch path name value (dateOf? value)
    return .string d.text
  | .datetime => do
    let t ← match value with
      | .timestamp t => pure t
      | value => orMismatch path name value (timestampOf? value)
    return .string (← universal t).millisecondText
  | s => orMismatch path name value (sharedForm? s value)

def decodeScalar [UrlNormaliser] (path name : String) (s : Scalar) (value : Value) : Result Value :=
  match s with
  | .bytes =>
    match value with
    | .string text => do
      let content ← orMismatch path "bytes (base 64)" value (Base64.decode? text.toList)
      return .bytes content
    | _ => mismatch path "bytes (base 64)" value
  | .bigint =>
    match value with
    | .string text =>
      if ¬ isIntegerText text.toList then mismatch path name value
      else if isTooLong value then .error .numberTooLong
      else
        match text.toList with
        | '-' :: digits => .ok (.int (-(digitsValue digits : Int)))
        | digits => .ok (.int (digitsValue digits))
    | value => do
      let n ← orMismatch path name value (wholeNumber? value)
      return .int n
  | .decimal =>
    match value with
    | .int n =>
      if isTooLong (.int n) then .error .numberTooLong else .ok (.decimal (.ofInt n))
    | value => do
      let d ← orMismatch path name value (decimalOf? value)
      return .decimal d
  | .date => do
    let d ← orMismatch path name value (dateOf? value)
    return .date d
  | .datetime => do
    let t ← orMismatch path name value (timestampOf? value)
    return .timestamp (← universal t)
  | s => orMismatch path name value (sharedForm? s value)

end Codec

end ApiSchema
