import ApiSchema.Json.Reader
import ApiSchema.Number.Digits
import ApiSchema.Text.Pieces
import ApiSchema.Text.Quoted

/-!
Hosts of URLs: domain names, addresses of the fourth and of the sixth version, and, where the
scheme is not known, text that is left as it is. The characters that are percent-encoded differ
from part to part of a URL. Names beyond ASCII are refused, and what they are encoded to is not
checked.
-/

namespace ApiSchema.Url

/-- Controls and everything beyond ASCII are encoded wherever they stand. -/
def isControl (c : Char) : Bool := c.toNat < 0x20 || 0x7f ≤ c.toNat

def escapedIn (marks : String) (c : Char) : Bool := isControl c || marks.toList.contains c

def isFragmentEscaped : Char → Bool := escapedIn " \"<>`"

def isPathEscaped : Char → Bool := escapedIn " \"<>`#?\x7b\x7d"

def isUserEscaped : Char → Bool := escapedIn " \"<>`#?\x7b\x7d/:;=@[\\]^|"

def isQueryEscaped (special : Bool) (c : Char) : Bool :=
  escapedIn " \"#<>" c || (special && c == '\'')

def escapeByte (b : UInt8) : List Char :=
  '%' :: (Text.hexDigits 2 b.toNat).map Char.toUpper

def escape (escaped : Char → Bool) (cs : List Char) : List Char :=
  cs.flatMap fun c => if escaped c then (String.utf8EncodeChar c).flatMap escapeByte else [c]

/-- The bytes of a text in which a percent sign with two digits stands for a byte. -/
def unescape : List Char → List UInt8
  | '%' :: a :: b :: rest =>
    match Json.hexNumber? [a, b] with
    | some n => UInt8.ofNat n :: unescape rest
    | none => 0x25 :: unescape (a :: b :: rest)
  | c :: rest => String.utf8EncodeChar c ++ unescape rest
  | [] => []

inductive Host where
  | name (text : List Char)
  | ipv4 (address : Nat)
  /-- Eight pieces of 16 bits. -/
  | ipv6 (pieces : List Nat)
  deriving DecidableEq, Repr

/-- A number in one of three bases: sixteen behind `0x`, eight behind `0`, else ten. -/
def readNumber? : List Char → Option Nat
  | [] => none
  | '0' :: 'x' :: digits | '0' :: 'X' :: digits => Json.hexNumber? digits
  | '0' :: d :: digits =>
    if (d :: digits).all fun c => '0' ≤ c && c ≤ '7' then
      some ((d :: digits).foldl (fun n c => 8 * n + digitValue c) 0)
    else none
  | digits => if digits.all isDigit then some (digitsValue digits) else none

/-- Labels between dots; a dot at the end adds none. -/
def labels (name : List Char) : List (List Char) :=
  let pieces := Text.split '.' name
  if 1 < pieces.length ∧ pieces.getLast? = some [] then pieces.dropLast else pieces

/-- The last label is a number, so that the name can only be an address. -/
def endsInNumber (name : List Char) : Bool :=
  match (labels name).getLast? with
  | none | some [] => false
  | some label => label.all isDigit || (readNumber? label).isSome

/-- An address of up to four numbers, of which the last fills all bytes that are left. -/
def readIpv4? (name : List Char) : Option Nat := do
  let numbers ← (labels name).mapM readNumber?
  let last ← numbers.getLast?
  let leading := numbers.dropLast
  if 3 < leading.length ∨ leading.any (255 < ·) ∨ power 256 (4 - leading.length) ≤ last then none
  else
    let shifted := leading.zipIdx.map fun (n, i) => n * power 256 (3 - i)
    return total shifted + last

/-- Four decimal numbers of at most 255, without zeros in front, as two pieces. -/
def readDotted? (text : List Char) : Option (List Nat) :=
  let number? (digits : List Char) : Option Nat :=
    if digits.isEmpty || !digits.all isDigit || (1 < digits.length && digits.head? == some '0')
        || 255 < digitsValue digits then none
    else some (digitsValue digits)
  match (Text.split '.' text).mapM number? with
  | some [a, b, c, d] => some [256 * a + b, 256 * c + d]
  | _ => none

def readPiece? (digits : List Char) : Option Nat :=
  if digits.isEmpty ∨ 4 < digits.length then none else Json.hexNumber? digits

/-- Pieces between colons; the last two may be written as a dotted address. -/
def readPieces? (pieces : List (List Char)) : Option (List Nat) :=
  match pieces.getLast? with
  | none => some []
  | some last =>
    if last.contains '.' then do
      return (← pieces.dropLast.mapM readPiece?) ++ (← readDotted? last)
    else pieces.mapM readPiece?

def splitDoubleColon : List Char → List Char × Option (List Char)
  | ':' :: ':' :: rest => ([], some rest)
  | c :: rest =>
    let (before, after) := splitDoubleColon rest
    (c :: before, after)
  | [] => ([], none)

def colonPieces (text : List Char) : List (List Char) :=
  if text.isEmpty then [] else Text.split ':' text

/-- A double colon stands for one or more pieces that are zero. -/
def readIpv6? (text : List Char) : Option (List Nat) :=
  match splitDoubleColon text with
  | (all, none) => (readPieces? (colonPieces all)).filter (·.length == 8)
  | (before, some after) => do
    let front ← (colonPieces before).mapM readPiece?
    let back ← readPieces? (colonPieces after)
    if 7 < front.length + back.length then none
    else return front ++ List.replicate (8 - front.length - back.length) 0 ++ back

def isForbiddenInHost (c : Char) : Bool := "\x00\t\n\x0d #/:<>?@[\\]^|".toList.contains c

def isForbiddenInName (c : Char) : Bool := isForbiddenInHost c || isControl c || c == '%'

def bracketed? (text : List Char) : Option (List Char) :=
  if text.getLast? = some ']' then some (text.drop 1).dropLast else none

def readHost? (text : List Char) : Option Host :=
  if text.head? = some '[' then (bracketed? text).bind readIpv6? |>.map .ipv6
  else
    let name := (unescape text).map fun b => (Char.ofNat b.toNat).toLower
    if name.isEmpty || name.any isForbiddenInName then none
    else if endsInNumber name then (readIpv4? name).map .ipv4
    else some (.name name)

/-- A host of another scheme, which may be empty. -/
def readOpaqueHost? (text : List Char) : Option Host :=
  if text.head? = some '[' then (bracketed? text).bind readIpv6? |>.map .ipv6
  else if text.any isForbiddenInHost then none
  else some (.name (escape isControl text))

def longestZeros (pieces : List Nat) : Nat × Nat :=
  (List.range pieces.length).foldl
    (fun best start =>
      let count := ((pieces.drop start).takeWhile (· == 0)).length
      if best.2 < count then (start, count) else best)
    (0, 0)

def pieceText (n : Nat) : List Char := Nat.toDigits 16 n

def piecesText (pieces : List Nat) : List Char := Text.join ':' (pieces.map pieceText)

/-- The longest run of at least two zeros is written as a double colon. -/
def ipv6Text (pieces : List Nat) : List Char :=
  let (start, count) := longestZeros pieces
  if count < 2 then piecesText pieces
  else piecesText (pieces.take start) ++ "::".toList ++ piecesText (pieces.drop (start + count))

def ipv4Text (address : Nat) : List Char :=
  Text.join '.' ([3, 2, 1, 0].map fun i => digitsOf (address / power 256 i % 256))

def Host.text : Host → List Char
  | .name text => text
  | .ipv4 address => ipv4Text address
  | .ipv6 pieces => '[' :: ipv6Text pieces ++ [']']

end ApiSchema.Url
