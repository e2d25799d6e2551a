import ApiSchema.Json.Reader
import ApiSchema.Number.Digits
import ApiSchema.Text.Pieces
import ApiSchema.Yaml.Cursor

/-!
Kinds of scalars. The text of a plain scalar decides whether it is a null, a truth value, a number,
a time, one of two special keys, or text.
-/

namespace ApiSchema.Yaml

inductive Kind where
  | text
  | null
  | bool
  | int
  | float
  | timestamp
  | merge
  | equals
  deriving DecidableEq, Repr

namespace Kind

def trueWords : List String := ["yes", "Yes", "YES", "true", "True", "TRUE", "on", "On", "ON"]

def falseWords : List String := ["no", "No", "NO", "false", "False", "FALSE", "off", "Off", "OFF"]

def nullWords : List String := ["", "~", "null", "Null", "NULL"]

def infinities : List String := [".inf", ".Inf", ".INF"]

def notNumbers : List String := [".nan", ".NaN", ".NAN"]

def unsigned : List Char → List Char
  | '-' :: cs | '+' :: cs => cs
  | cs => cs

def isDigitOrLine (c : Char) : Bool := isDigit c || c == '_'

/-- Digits, and underscores behind the first of them. -/
def isGrouped (cs : List Char) : Bool := cs.head?.any isDigit && cs.all isDigitOrLine

/-- Parts of one or two digits below sixty. -/
def isSixtieth : List Char → Bool
  | [d] => isDigit d
  | [t, d] => isDigit t && t ≤ '5' && isDigit d
  | _ => false

/-- Parts between colons, of which the first can be any number. -/
def isSexagesimal (cs : List Char) : Bool :=
  match Text.split ':' cs with
  | first :: second :: more => isGrouped first && (second :: more).all isSixtieth
  | _ => false

def isHexOrLine (c : Char) : Bool := (Json.hexValue? c).isSome || c == '_'

def isOctalOrLine (c : Char) : Bool := ('0' ≤ c && c ≤ '7') || c == '_'

def isInt (cs : List Char) : Bool :=
  match unsigned cs with
  | ['0'] => true
  | '0' :: 'b' :: bits => !bits.isEmpty && bits.all fun c => c == '0' || c == '1' || c == '_'
  | '0' :: 'x' :: digits => !digits.isEmpty && digits.all isHexOrLine
  | '0' :: digits => digits.all isOctalOrLine
  | digits => isGrouped digits || isSexagesimal digits

def isExponent : List Char → Bool
  | [] => true
  | mark :: sign :: digits =>
    (mark == 'e' || mark == 'E') && (sign == '-' || sign == '+') && !digits.isEmpty
      && digits.all isDigit
  | _ => false

def isFloat (cs : List Char) : Bool :=
  let body := unsigned cs
  let whole := body.takeWhile (· != '.')
  match body.dropWhile (· != '.') with
  | [] => false
  | _ :: fraction =>
    let digits := fraction.takeWhile isDigitOrLine
    let rest := fraction.dropWhile isDigitOrLine
    if whole.isEmpty then
      infinities.contains (String.ofList body) || notNumbers.contains (String.ofList cs)
        || (body.length == cs.length && isGrouped digits && isExponent rest)
    else (isGrouped whole && isExponent rest) || (isSexagesimal whole && rest.isEmpty)

def takeDigits? (least most : Nat) (cs : List Char) : Option (Nat × List Char) :=
  let digits := (cs.take most).takeWhile isDigit
  if digits.length < least then none else some (digitsValue digits, cs.drop digits.length)

def readZone? (cs : List Char) : Option (Option Int) :=
  match cs.dropWhile isGap with
  | [] => if cs.isEmpty then some none else none
  | ['Z'] => some (some 0)
  | sign :: rest => do
    if sign ≠ '+' ∧ sign ≠ '-' then none
    else
      let (hours, rest) ← takeDigits? 1 2 rest
      let minutes ← match rest with
        | [] => some 0
        | ':' :: rest =>
          match takeDigits? 2 2 rest with
          | some (minutes, []) => some minutes
          | _ => none
        | _ => none
      let seconds : Int := (hours * 60 + minutes) * 60
      return some (if sign = '-' then -seconds else seconds)

def readClock? (date : Date) (cs : List Char) : Option Timestamp := do
  let (hour, rest) ← takeDigits? 1 2 cs
  let (minute, rest) ← (Text.after? [':'] rest).bind (takeDigits? 2 2)
  let (second, rest) ← (Text.after? [':'] rest).bind (takeDigits? 2 2)
  let (fraction, rest) := match rest with
    | '.' :: rest => (rest.takeWhile isDigit, rest.dropWhile isDigit)
    | rest => ([], rest)
  let offset ← readZone? rest
  let fraction := fraction.take 6
  let microsecond := digitsValue (fraction ++ List.replicate (6 - fraction.length) '0')
  return ⟨date, hour, minute, second, microsecond, offset⟩

/-- A letter or blanks before a time. -/
def readClockAfterMark? (date : Date) : List Char → Option Timestamp
  | [] => none
  | mark :: rest =>
    if mark = 'T' ∨ mark = 't' then readClock? date rest
    else if isGap mark then readClock? date (rest.dropWhile isGap)
    else none

/-- A date, and a time if one follows, whatever the numbers are. -/
def readTimestamp? (cs : List Char) : Option (Date × Option Timestamp) := do
  let (year, rest) ← takeDigits? 4 4 cs
  let (month, rest) ← (Text.after? ['-'] rest).bind (takeDigits? 1 2)
  let (day, rest) ← (Text.after? ['-'] rest).bind (takeDigits? 1 2)
  let date : Date := ⟨year, month, day⟩
  if rest.isEmpty then return (date, none)
  else return (date, some (← readClockAfterMark? date rest))

/-- A date alone has to be written with all its digits. -/
def isTimestamp (cs : List Char) : Bool :=
  match readTimestamp? cs with
  | some (_, none) => cs.length == 10
  | some (_, some _) => true
  | none => false

def ofText (text : String) : Kind :=
  let cs := text.toList
  if (trueWords ++ falseWords).contains text then .bool
  else if nullWords.contains text then .null
  else if isFloat cs then .float
  else if isInt cs then .int
  else if isTimestamp cs then .timestamp
  else if text = "<<" then .merge
  else if text = "=" then .equals
  else .text

end Kind

def valueless {α : Type} : Reading α := .error .valueless

def orValueless {α : Type} : Option α → Reading α
  | some a => .ok a
  | none => valueless

def inBase? (base : Nat) (digits : List Char) : Option Nat :=
  if digits.isEmpty then none
  else digits.foldl (fun n c => do
    let d ← Json.hexValue? c
    if d < base then return base * (← n) + d else none) (some 0)

def decimalNumber? (digits : List Char) : Option Nat :=
  if exceedsDigitLimit digits.length then none else inBase? 10 digits

def readInt? (cs : List Char) : Option Int :=
  let negative := cs.head? == some '-'
  let magnitude := match Kind.unsigned (cs.filter (· != '_')) with
    | ['0'] => some 0
    | '0' :: 'b' :: bits => inBase? 2 bits
    | '0' :: 'x' :: digits => inBase? 16 digits
    | '0' :: digits => inBase? 8 digits
    | digits =>
      (Text.split ':' digits).foldl (fun n part => do
        return 60 * (← n) + (← decimalNumber? part)) (some 0)
  magnitude.map fun n => if negative then -(n : Int) else n

def isNumeral (cs : List Char) : Bool :=
  let isMark (c : Char) : Bool := c == 'e' || c == 'E'
  let digits := cs.takeWhile (!isMark ·)
  let exponent := (cs.dropWhile (!isMark ·)).drop 1
  let plain := digits.filter (· != '.')
  !plain.isEmpty && plain.all isDigit && digits.length ≤ plain.length + 1
    && ((cs.dropWhile (!isMark ·)).isEmpty
      || (!(Kind.unsigned exponent).isEmpty && (Kind.unsigned exponent).all isDigit))

def binaryOf (negative : Bool) (numeral : List Char) : Binary64 :=
  match Decimal.ofNumeral numeral with
  | .finite _ coefficient exponent => .ofDecimal negative coefficient exponent
  | _ => .nan

/-- A number of sixtieths, of which the last part may have a fraction. -/
def sexagesimal? (negative : Bool) (cs : List Char) : Option Binary64 := do
  let parts := Text.split ':' cs
  if !parts.all isNumeral then none
  else
    let (digits, places) := Decimal.readPlain (parts.getLast?.getD [])
    let whole := parts.dropLast.foldl (fun n part => 60 * n + digitsValue part) 0
    return .ofDecimal negative (60 * whole * power 10 places + digitsValue digits) (-places)

def readFloat? (cs : List Char) : Option Binary64 :=
  let negative := cs.head? == some '-'
  let body := Kind.unsigned ((cs.filter (· != '_')).map Char.toLower)
  if [".inf", "inf", "infinity"].contains (String.ofList body) then some (.infinity negative)
  else if [".nan", "nan"].contains (String.ofList body) then some .nan
  else if body.contains ':' then sexagesimal? negative body
  else if isNumeral body then some (binaryOf negative body)
  else none

def readTimestamp (cs : List Char) : Reading Value :=
  match Kind.readTimestamp? cs with
  | none => .error .noTimestamp
  | some (date, none) => if date.isValid then .ok (.date date) else valueless
  | some (_, some t) => if t.isValid then .ok (.timestamp t) else valueless

def readBool (text : String) : Reading Value :=
  let word := String.ofList (text.toList.map Char.toLower)
  if Kind.trueWords.contains word then .ok (.bool true)
  else if Kind.falseWords.contains word then .ok (.bool false)
  else .error .noTruthValue

/-- The value of a scalar of a kind. Of the two special keys only the second is one by itself. -/
def Kind.read (kind : Kind) (text : String) : Reading Value :=
  match kind with
  | .text => .ok (.string text)
  | .null => .ok .null
  | .bool => readBool text
  | .int => (orValueless (readInt? text.toList)).map .int
  | .float => (orValueless (readFloat? text.toList)).map .float
  | .timestamp => readTimestamp text.toList
  | .merge | .equals => malformed

end ApiSchema.Yaml
