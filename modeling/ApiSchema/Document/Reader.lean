import ApiSchema.Document
import ApiSchema.Json.Reader
import ApiSchema.Number.Digits
import ApiSchema.Text.Blank
import ApiSchema.Text.Pieces

/-!
Reading of documents. Nothing unknown is accepted, but values may come in related forms: text as
bytes, lists as tuples, and whole numbers as text or as numbers of other kinds.
-/

namespace ApiSchema.Document

def readText? : Value → Option String
  | .string text => some text
  | .bytes content | .buffer content => String.fromUTF8? ⟨content.toArray⟩
  | _ => none

def readList? : Value → Option (List Value)
  | .list items | .tuple items => some items
  | _ => none

def readPair? (value : Value) : Option (String × String) :=
  match readList? value with
  | some [first, second] => do return (← readText? first, ← readText? second)
  | _ => none

def readNameOrPair? (value : Value) : Option (String × Option String) :=
  match readText? value with
  | some name => some (name, none)
  | none => (readPair? value).map fun (name, other) => (name, some other)

def readTable? {α : Type} (read : Value → Option α) : Value → Option (Table α)
  | .mapping entries => do
    let entries ← entries.mapM fun (key, item) => do return (← readText? key, ← read item)
    return Table.ofEntries entries
  | _ => none

def readItems? {α : Type} (read : Value → Option α) (value : Value) : Option (List α) := do
  (← readList? value).mapM read

/-- The members of a record, each under the first of its spellings that occurs. Nothing else may
occur. -/
def readMembers? (spellings : List (List String)) : Value → Option (List (Option Value))
  | .mapping entries =>
    let find (name : String) : Option (String × Value) :=
      (Value.get? entries (.string name)).map (name, ·)
    let found := spellings.map fun names => names.findSome? find
    let used := found.filterMap fun member => member.map (·.1)
    let isUsed : Value → Bool
      | .string name => used.contains name
      | _ => false
    if entries.all fun (key, _) => isUsed key then some (found.map fun member => member.map (·.2))
    else none
  | _ => none

/-- Blanks around a number; the four separator controls are not among them. -/
def isNumberBlank (c : Char) : Bool := Text.isBlank c && !(28 ≤ c.toNat && c.toNat ≤ 31)

def readDigits? (cs : List Char) : Option (List Char) :=
  let groups := Text.split '_' cs
  if groups.all fun group => !group.isEmpty && group.all isDigit then some groups.flatten else none

/-- A whole number as text. A point may follow it, and zeros the point; only a negative number may
not begin with a zero. -/
def readNumeral? (text : String) : Option Int :=
  let cs := ((text.toList.dropWhile isNumberBlank).reverse.dropWhile isNumberBlank).reverse
  let (negative, body) := match cs with
    | '-' :: body => (true, body)
    | '+' :: body => (false, body)
    | body => (false, body)
  let whole := body.takeWhile (· != '.')
  let fraction := (body.dropWhile (· != '.')).drop 1
  match readDigits? whole with
  | none => none
  | some digits =>
    if !fraction.all (· == '0') || (negative && digits.head? == some '0' && 1 < digits.length)
        || exceedsDigitLimit digits.length then none
    else some (if negative then -(digitsValue digits : Int) else digitsValue digits)

/-- A number of another kind has to be whole, and a floating-point number within 64 bits. -/
def readInt? : Value → Option Int
  | .int n => some n
  | .bool b => some (if b then 1 else 0)
  | .float x => x.toInt?.filter fun n => n.natAbs < power 2 63
  | .decimal (.finite negative coefficient exponent) =>
    let (n, d) := Decimal.quotient coefficient exponent
    if n % d = 0 ∧ ¬ exceedsDigitLimit (digitsOf (n / d)).length then
      some (if negative then -((n / d : Nat) : Int) else (n / d : Nat))
    else none
  | value => (readText? value).bind readNumeral?

def readOptionalText? : Value → Option (Option String)
  | .null => some none
  | value => (readText? value).map some

def readRest? (value : Value) : Option RestMapping := do
  match ← readMembers? [["bodyVariable", "body_variable"], ["headers"], ["method"], ["path"],
    ["pathVariables", "path_variables"], ["queryVariables", "query_variables"]] value with
  | [some body, some headers, some method, some path, some pathVariables, some queryVariables] =>
    return {
      method := ← readText? method
      path := ← readText? path
      pathVariables := ← readItems? readText? pathVariables
      queryVariables := ← readItems? readText? queryVariables
      headers := ← readItems? readPair? headers
      bodyVariable := ← readOptionalText? body }
  | _ => none

/-- Only a hidden annotation may come without a value. -/
def readAnnotation? (value : Value) : Option Annotation := do
  match value.field? "type", ← readMembers? [["type"], ["value"]] value with
  | some (.string "description"), [_, some item] => (readText? item).map .description
  | some (.string "throws"), [_, some item] => (readText? item).map .throws
  | some (.string "hidden"), [_, none] => return .hidden
  | some (.string "hidden"), [_, some .null] => return .hidden
  | some (.string "statusCode"), [_, some item] => (readInt? item).map .statusCode
  | some (.string "rest"), [_, some item] => (readRest? item).map .rest
  | _, _ => none

def readSignature? (value : Value) : Option Signature := do
  match ← readMembers? [["args"], ["ret"]] value with
  | [some args, some returns] =>
    return ⟨← readTable? readText? args, ← readText? returns⟩
  | _ => none

def readDescription? : Value → Option TypeDescription
  | .mapping entries => (readTable? readText? (.mapping entries)).map .struct
  | value =>
    match readText? value with
    | some type => some (.text type)
    | none => (readItems? readNameOrPair? value).map .enum

/-- A member of a document that is absent is empty. -/
def readOrEmpty? {α : Type} (read : Value → Option (List α)) : Option Value → Option (List α)
  | none => some []
  | some value => read value

def ofValue? (value : Value) : Option Document := do
  match ← readMembers? [["annotations"], ["errors"], ["functionTable", "function_table"],
    ["typeTable", "type_table"]] value with
  | [notes, errors, operations, types] =>
    return {
      notes := ← readOrEmpty? (readTable? (readItems? readAnnotation?)) notes
      errors := ← readOrEmpty? (readItems? readNameOrPair?) errors
      operations := ← readOrEmpty? (readTable? readSignature?) operations
      types := ← readOrEmpty? (readTable? readDescription?) types }
  | _ => none

def ofText? (text : String) : Option Document := (Json.read? text).bind ofValue?

end ApiSchema.Document
