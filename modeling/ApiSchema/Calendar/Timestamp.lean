import ApiSchema.Number.Digits

/-!
Dates of the Gregorian calendar in the years 1 to 9999, and points in time: a date with a time of day
to the microsecond and, unless it is local time, the offset of its zone from universal time.
-/

namespace ApiSchema

structure Date where
  year : Nat
  month : Nat
  day : Nat
  deriving DecidableEq, Repr, Inhabited

namespace Date

def isLeap (year : Nat) : Bool := year % 4 == 0 && (year % 100 != 0 || year % 400 == 0)

def daysIn (year month : Nat) : Nat :=
  if month = 2 then (if isLeap year then 29 else 28)
  else if month = 4 ∨ month = 6 ∨ month = 9 ∨ month = 11 then 30
  else 31

def isValid (d : Date) : Bool :=
  1 ≤ d.year && d.year ≤ 9999 && 1 ≤ d.month && d.month ≤ 12 && 1 ≤ d.day
    && d.day ≤ daysIn d.year d.month

/-- The following day, unless it is after the last year. -/
def next? (d : Date) : Option Date :=
  if d.day < daysIn d.year d.month then some { d with day := d.day + 1 }
  else if d.month < 12 then some ⟨d.year, d.month + 1, 1⟩
  else if d.year < 9999 then some ⟨d.year + 1, 1, 1⟩
  else none

/-- The preceding day, unless it is before the first year. -/
def previous? (d : Date) : Option Date :=
  if 1 < d.day then some { d with day := d.day - 1 }
  else if 1 < d.month then some ⟨d.year, d.month - 1, daysIn d.year (d.month - 1)⟩
  else if 1 < d.year then some ⟨d.year - 1, 12, 31⟩
  else none

def text (d : Date) : String := padded 4 d.year ++ "-" ++ padded 2 d.month ++ "-" ++ padded 2 d.day

/-- Reads `YYYY-MM-DD`, whatever the numbers are. -/
def fields? : List Char → Option Date
  | [a, b, c, d, '-', e, f, '-', g, h] =>
    if [a, b, c, d, e, f, g, h].all isDigit then
      some ⟨digitsValue [a, b, c, d], digitsValue [e, f], digitsValue [g, h]⟩
    else none
  | _ => none

def ofText? (text : List Char) : Option Date := (fields? text).filter isValid

end Date

structure Timestamp where
  date : Date
  hour : Nat
  minute : Nat
  second : Nat
  microsecond : Nat
  /-- Seconds that the zone is ahead of universal time; less than a day either way. -/
  offset : Option Int
  deriving DecidableEq, Repr, Inhabited

namespace Timestamp

def secondsPerDay : Int := 86400

def isValid (t : Timestamp) : Bool :=
  t.date.isValid && t.hour < 24 && t.minute < 60 && t.second < 60 && t.microsecond < 1000000
    && t.offset.all fun o => -secondsPerDay < o && o < secondsPerDay

def daySeconds (t : Timestamp) : Int := (t.hour * 60 + t.minute) * 60 + t.second

def withDaySeconds (t : Timestamp) (date : Date) (seconds : Nat) : Timestamp :=
  { t with date, hour := seconds / 3600, minute := seconds / 60 % 60, second := seconds % 60 }

/-- The same instant in universal time, unless its day is outside of the calendar. Local time is
taken as universal time. -/
def toUniversal? (t : Timestamp) : Option Timestamp :=
  let seconds := t.daySeconds - t.offset.getD 0
  let t := { t with offset := some 0 }
  if seconds < 0 then
    t.date.previous?.map fun date => t.withDaySeconds date (seconds + secondsPerDay).toNat
  else if secondsPerDay ≤ seconds then
    t.date.next?.map fun date => t.withDaySeconds date (seconds - secondsPerDay).toNat
  else some (t.withDaySeconds t.date seconds.toNat)

def clockText (t : Timestamp) : String :=
  padded 2 t.hour ++ ":" ++ padded 2 t.minute ++ ":" ++ padded 2 t.second

def zoneText : Option Int → String
  | none => ""
  | some offset =>
    let n := offset.natAbs
    (if offset < 0 then "-" else "+") ++ padded 2 (n / 3600) ++ ":" ++ padded 2 (n / 60 % 60)
      ++ (if n % 60 = 0 then "" else ":" ++ padded 2 (n % 60))

/-- Date and time with a separator; the fraction is left out when it is zero. -/
def textWith (separator : String) (t : Timestamp) : String :=
  t.date.text ++ separator ++ t.clockText
    ++ (if t.microsecond = 0 then "" else "." ++ padded 6 t.microsecond) ++ zoneText t.offset

def text (t : Timestamp) : String := t.textWith "T"

/-- Date and time to the millisecond, rounded down, without the zone. -/
def millisecondText (t : Timestamp) : String :=
  t.date.text ++ "T" ++ t.clockText ++ "." ++ padded 3 (t.microsecond / 1000)

/-- A fraction of one to six digits in microseconds. -/
def fraction? (digits : List Char) : Option Nat :=
  if digits.all isDigit && 1 ≤ digits.length && digits.length ≤ 6 then
    some (digitsValue (digits ++ List.replicate (6 - digits.length) '0'))
  else none

/-- The offset of `Z`, `+HH:MM` or `-HH:MM`, and none of an empty text. Up to 69 minutes are taken,
which carry into the hours. -/
def zone? : List Char → Option (Option Int)
  | [] => some none
  | ['Z'] => some (some 0)
  | [sign, a, b, ':', c, d] =>
    if (sign = '+' ∨ sign = '-') ∧ [a, b, c, d].all isDigit ∧ c < '7' then
      let seconds : Int := (digitsValue [a, b] * 60 + digitsValue [c, d]) * 60
      some (some (if sign = '-' then -seconds else seconds))
    else none
  | _ => none

/-- Reads `YYYY-MM-DDTHH:MM:SS` with an optional fraction and zone, whatever the numbers are. -/
def fields? (text : List Char) : Option Timestamp :=
  match Date.fields? (text.take 10), text.drop 10 with
  | some date, 'T' :: a :: b :: ':' :: c :: d :: ':' :: e :: f :: rest =>
    if [a, b, c, d, e, f].all isDigit then
      let tail := match rest with
        | '.' :: rest => (fraction? (rest.takeWhile isDigit)).map (·, rest.dropWhile isDigit)
        | rest => some (0, rest)
      match tail with
      | some (microsecond, rest) =>
        (zone? rest).map fun offset =>
          ⟨date, digitsValue [a, b], digitsValue [c, d], digitsValue [e, f], microsecond, offset⟩
      | none => none
    else none
  | _, _ => none

def ofText? (text : List Char) : Option Timestamp := (fields? text).filter isValid

end Timestamp

end ApiSchema
