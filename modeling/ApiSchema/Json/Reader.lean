import ApiSchema.Value

/-!
Reading of JSON text. Numbers without fraction and exponent are whole numbers; `NaN` and the two
infinities are numbers too. Of two members with one key the later one counts.
-/

namespace ApiSchema.Json

def isSpace (c : Char) : Bool := c == ' ' || c == '\t' || c == '\n' || c == '\r'

def skipSpace (cs : List Char) : List Char := cs.dropWhile isSpace

def hexValue? (c : Char) : Option Nat :=
  if '0' ≤ c ∧ c ≤ '9' then some (c.toNat - 48)
  else if 'a' ≤ c ∧ c ≤ 'f' then some (c.toNat - 87)
  else if 'A' ≤ c ∧ c ≤ 'F' then some (c.toNat - 55)
  else none

def hexNumber? (digits : List Char) : Option Nat :=
  digits.foldl (fun n c => n.bind fun n => (hexValue? c).map (16 * n + ·)) (some 0)

def simpleEscape? (c : Char) : Option Char :=
  if c = '"' ∨ c = '\\' ∨ c = '/' then some c
  else if c = 'b' then some '\x08'
  else if c = 'f' then some '\x0c'
  else if c = 'n' then some '\n'
  else if c = 'r' then some '\r'
  else if c = 't' then some '\t'
  else none

def isHighUnit (n : Nat) : Bool := 0xd800 ≤ n && n < 0xdc00

def isLowUnit (n : Nat) : Bool := 0xdc00 ≤ n && n < 0xe000

/-- The text after an opening quote, and what follows the closing one. A unit of a surrogate pair
without its partner is not text. -/
def readText : List Char → Option (List Char × List Char)
  | [] => none
  | '"' :: rest => some ([], rest)
  | '\\' :: 'u' :: a :: b :: c :: d :: '\\' :: 'u' :: e :: f :: g :: h :: rest =>
    match hexNumber? [a, b, c, d] with
    | none => none
    | some high =>
      if isHighUnit high then
        match hexNumber? [e, f, g, h] with
        | none => none
        | some low =>
          if isLowUnit low then
            (readText rest).map fun (text, rest) =>
              (Char.ofNat (0x10000 + (high - 0xd800) * 0x400 + (low - 0xdc00)) :: text, rest)
          else none
      else if isLowUnit high then none
      else
        (readText ('\\' :: 'u' :: e :: f :: g :: h :: rest)).map fun (text, rest) =>
          (Char.ofNat high :: text, rest)
  | '\\' :: 'u' :: a :: b :: c :: d :: rest =>
    match hexNumber? [a, b, c, d] with
    | none => none
    | some code =>
      if isHighUnit code || isLowUnit code then none
      else (readText rest).map fun (text, rest) => (Char.ofNat code :: text, rest)
  | '\\' :: c :: rest =>
    match simpleEscape? c with
    | none => none
    | some c => (readText rest).map fun (text, rest) => (c :: text, rest)
  | c :: rest =>
    if c.toNat < 0x20 then none else (readText rest).map fun (text, rest) => (c :: text, rest)

/-- Digits behind a point; nothing when no digit follows the point. -/
def readFraction : List Char → List Char × List Char
  | '.' :: rest =>
    if (rest.takeWhile isDigit).isEmpty then ([], '.' :: rest)
    else (rest.takeWhile isDigit, rest.dropWhile isDigit)
  | rest => ([], rest)

def readExponent (cs : List Char) : Option Int × List Char :=
  match cs with
  | mark :: rest =>
    if mark = 'e' ∨ mark = 'E' then
      let (negative, digits) := match rest with
        | '-' :: rest => (true, rest)
        | '+' :: rest => (false, rest)
        | rest => (false, rest)
      if (digits.takeWhile isDigit).isEmpty then (none, cs)
      else
        let n : Int := digitsValue (digits.takeWhile isDigit)
        (some (if negative then -n else n), digits.dropWhile isDigit)
    else (none, cs)
  | [] => (none, cs)

/-- The whole part of a number: one zero, or digits that do not start with zero. -/
def readWhole : List Char → List Char × List Char
  | '0' :: rest => (['0'], rest)
  | rest => (rest.takeWhile isDigit, rest.dropWhile isDigit)

def readNumber (negative : Bool) (cs : List Char) : Option (Value × List Char) :=
  let (whole, rest) := readWhole cs
  if whole.isEmpty then none
  else
    let (fraction, rest) := readFraction rest
    let (exponent, rest) := readExponent rest
    if fraction.isEmpty && exponent.isNone then
      if exceedsDigitLimit whole.length then none
      else
        let n : Int := digitsValue whole
        some (.int (if negative then -n else n), rest)
    else
      let x := Binary64.ofDecimal negative (digitsValue (whole ++ fraction))
        (exponent.getD 0 - fraction.length)
      some (.float x, rest)

mutual

/-- Reads a value; `fuel` bounds its nesting together with the number of its parts. -/
def readValue : (fuel : Nat) → List Char → Option (Value × List Char)
  | 0, _ => none
  | fuel + 1, cs =>
    match cs with
    | '"' :: rest => (readText rest).map fun (text, rest) => (.string (String.ofList text), rest)
    | '\x7b' :: rest =>
      match skipSpace rest with
      | '\x7d' :: rest => some (.mapping [], rest)
      | rest => (readMembers fuel [] rest).map fun (entries, rest) => (.mapping entries, rest)
    | '[' :: rest =>
      match skipSpace rest with
      | ']' :: rest => some (.list [], rest)
      | rest => (readItems fuel rest).map fun (items, rest) => (.list items, rest)
    | 'n' :: 'u' :: 'l' :: 'l' :: rest => some (.null, rest)
    | 't' :: 'r' :: 'u' :: 'e' :: rest => some (.bool true, rest)
    | 'f' :: 'a' :: 'l' :: 's' :: 'e' :: rest => some (.bool false, rest)
    | 'N' :: 'a' :: 'N' :: rest => some (.float .nan, rest)
    | 'I' :: 'n' :: 'f' :: 'i' :: 'n' :: 'i' :: 't' :: 'y' :: rest =>
      some (.float (.infinity false), rest)
    | '-' :: 'I' :: 'n' :: 'f' :: 'i' :: 'n' :: 'i' :: 't' :: 'y' :: rest =>
      some (.float (.infinity true), rest)
    | '-' :: rest => readNumber true rest
    | rest => readNumber false rest

def readItems : (fuel : Nat) → List Char → Option (List Value × List Char)
  | 0, _ => none
  | fuel + 1, cs =>
    match readValue fuel cs with
    | none => none
    | some (item, rest) =>
      match skipSpace rest with
      | ',' :: rest =>
        (readItems fuel (skipSpace rest)).map fun (items, rest) => (item :: items, rest)
      | ']' :: rest => some ([item], rest)
      | _ => none

def readMembers : (fuel : Nat) → List (Value × Value) → List Char →
    Option (List (Value × Value) × List Char)
  | 0, _, _ => none
  | fuel + 1, entries, cs =>
    match cs with
    | '"' :: rest =>
      match readText rest with
      | none => none
      | some (key, rest) =>
        match skipSpace rest with
        | ':' :: rest =>
          match readValue fuel (skipSpace rest) with
          | none => none
          | some (item, rest) =>
            let entries := Value.insert entries (.string (String.ofList key)) item
            match skipSpace rest with
            | ',' :: rest => readMembers fuel entries (skipSpace rest)
            | '\x7d' :: rest => some (entries, rest)
            | _ => none
        | _ => none
    | _ => none

end

def read? (text : String) : Option Value :=
  let cs := skipSpace text.toList
  match readValue (2 * cs.length + 2) cs with
  | some (value, rest) => if (skipSpace rest).isEmpty then some value else none
  | none => none

end ApiSchema.Json
