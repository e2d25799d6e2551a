import ApiSchema.Number.Shortest
import ApiSchema.Text.Quoted
import ApiSchema.Value

/-!
Writing of values as JSON text in ASCII. Values that JSON has no form for are refused, and so are
whole numbers with too many digits.
-/

namespace ApiSchema.Json

structure Spacing where
  item : String
  key : String

def Spacing.compact : Spacing := ⟨",", ":"⟩

def Spacing.wide : Spacing := ⟨", ", ": "⟩

def unitEscape (n : Nat) : List Char := '\\' :: 'u' :: Text.hexDigits 4 n

def charText (c : Char) : List Char :=
  if c = '"' then ['\\', '"']
  else if c = '\\' then ['\\', '\\']
  else if c = '\n' then ['\\', 'n']
  else if c = '\r' then ['\\', 'r']
  else if c = '\t' then ['\\', 't']
  else if c = '\x08' then ['\\', 'b']
  else if c = '\x0c' then ['\\', 'f']
  else
    let n := c.toNat
    if 0x20 ≤ n && n < 0x7f then [c]
    else if n < 0x10000 then unitEscape n
    else unitEscape (0xd800 + (n - 0x10000) / 0x400) ++ unitEscape (0xdc00 + (n - 0x10000) % 0x400)

def stringText (text : String) : String :=
  String.ofList ('"' :: text.toList.flatMap charText ++ ['"'])

def intText? (n : Int) : Option String :=
  let text := toString n
  if exceedsDigitLimit (digitsOf n.natAbs).length then none else some text

def floatText : Binary64 → String
  | .nan => "NaN"
  | .infinity negative => if negative then "-Infinity" else "Infinity"
  | x => x.text

/-- Keys that are not text are written as the text of their value. -/
def keyText? : Value → Option String
  | .string text => some (stringText text)
  | .null => some (stringText "null")
  | .bool b => some (stringText (if b then "true" else "false"))
  | .int n => (intText? n).map stringText
  | .float x => some (stringText (floatText x))
  | _ => none

mutual

def write? (spacing : Spacing) : Value → Option String
  | .null => some "null"
  | .bool b => some (if b then "true" else "false")
  | .int n => intText? n
  | .float x => some (floatText x)
  | .string text => some (stringText text)
  | .list items | .tuple items => (writeItems? spacing items).map fun body => "[" ++ body ++ "]"
  | .mapping entries =>
    (writeEntries? spacing entries).map fun body => "\x7b" ++ body ++ "\x7d"
  | _ => none

def writeItems? (spacing : Spacing) : List Value → Option String
  | [] => some ""
  | [item] => write? spacing item
  | item :: rest => do
    let first ← write? spacing item
    let others ← writeItems? spacing rest
    return first ++ spacing.item ++ others

def writeEntries? (spacing : Spacing) : List (Value × Value) → Option String
  | [] => some ""
  | [(key, item)] => do
    let key ← keyText? key
    let item ← write? spacing item
    return key ++ spacing.key ++ item
  | (key, item) :: rest => do
    let key ← keyText? key
    let item ← write? spacing item
    let others ← writeEntries? spacing rest
    return key ++ spacing.key ++ item ++ spacing.item ++ others

end

end ApiSchema.Json
