import ApiSchema.Json.Writer

/-!
Values as messages show them: as JSON where JSON can express them, and else in a notation that
names the kind of each value. A whole number with too many digits cannot be shown at all.
-/

namespace ApiSchema.Value

def byteText (mark : Char) (b : UInt8) : List Char :=
  let c := Char.ofNat b.toNat
  if b < 0x80 then Text.quotedChar mark c else '\\' :: 'x' :: Text.hexDigits 2 b.toNat

def byteMark (content : List UInt8) : Char :=
  Text.quoteMark (content.map fun b => Char.ofNat b.toNat)

def bytesText (content : List UInt8) : String :=
  let mark := byteMark content
  String.ofList ('b' :: mark :: content.flatMap (byteText mark) ++ [mark])

/-- In a buffer single quotes are escaped whatever encloses it. -/
def bufferText (content : List UInt8) : String :=
  let mark := byteMark content
  "bytearray(b" ++ String.ofList (mark :: content.flatMap (byteText '\'') ++ [mark]) ++ ")"

def dateText (d : Date) : String := s!"datetime.date({d.year}, {d.month}, {d.day})"

/-- A duration of whole seconds, split into days and seconds of which only the days can be
negative. -/
def durationText (seconds : Int) : String :=
  let days := Int.fdiv seconds 86400
  let rest := Int.fmod seconds 86400
  let parts := (if days = 0 then [] else [s!"days={days}"])
    ++ (if rest = 0 then [] else [s!"seconds={rest}"])
  "datetime.timedelta(" ++ (if parts.isEmpty then "0" else ", ".intercalate parts) ++ ")"

def zoneText (offset : Int) : String :=
  if offset = 0 then "datetime.timezone.utc"
  else "datetime.timezone(" ++ durationText offset ++ ")"

/-- Seconds and microseconds are left out when they end the time and are zero. -/
def timestampText (t : Timestamp) : String :=
  let fields := [t.date.year, t.date.month, t.date.day, t.hour, t.minute]
    ++ (if t.second = 0 ∧ t.microsecond = 0 then [] else [t.second])
    ++ (if t.microsecond = 0 then [] else [t.microsecond])
  let zone := match t.offset with
    | none => []
    | some offset => ["tzinfo=" ++ zoneText offset]
  "datetime.datetime(" ++ ", ".intercalate (fields.map Nat.repr ++ zone) ++ ")"

mutual

def shown? : Value → Option String
  | null => some "None"
  | bool b => some (if b then "True" else "False")
  | int n => Json.intText? n
  | float x => some x.text
  | string text => some (Text.quoted text)
  | list items => (shownItems? items).map fun body => "[" ++ ", ".intercalate body ++ "]"
  | tuple items =>
    (shownItems? items).map fun body => "(" ++ ", ".intercalate body
      ++ (if body.length = 1 then ",)" else ")")
  | mapping entries =>
    (shownEntries? entries).map fun body => "\x7b" ++ ", ".intercalate body ++ "\x7d"
  | bytes content => some (bytesText content)
  | buffer content => some (bufferText content)
  | decimal d => some ("Decimal('" ++ d.text ++ "')")
  | date d => some (dateText d)
  | timestamp t => some (timestampText t)

def shownItems? : List Value → Option (List String)
  | [] => some []
  | item :: rest => do
    let first ← shown? item
    let others ← shownItems? rest
    return first :: others

def shownEntries? : List (Value × Value) → Option (List String)
  | [] => some []
  | (key, item) :: rest => do
    let key ← shown? key
    let item ← shown? item
    let others ← shownEntries? rest
    return (key ++ ": " ++ item) :: others

end

/-- A value on its own: text, numbers and times stand without the name of their kind. -/
def plain? : Value → Option String
  | string text => some text
  | decimal d => some d.text
  | date d => some d.text
  | timestamp t => some (t.textWith " ")
  | value => value.shown?

def described? (value : Value) : Option String :=
  (Json.write? .wide value).orElse fun _ => value.plain?

end ApiSchema.Value
