/-!
Base64 with padding. Three bytes are four characters of six bits each; one or two bytes at the end
are filled up with zero bits and `=`. Only the one written form of some bytes is read: what a text is
read as is written again, to see whether it is that form.
-/

namespace ApiSchema.Base64

def alphabet : List Char :=
  "ABCDEFGHIJKLMNOPQRSTUVWXYZabcdefghijklmnopqrstuvwxyz0123456789+/".toList

def digit (n : Nat) : Char := alphabet.getD n '='

def digitValue? (c : Char) : Option Nat := alphabet.idxOf? c

def byte (n : Nat) : UInt8 := UInt8.ofNat n

def encode : List UInt8 → List Char
  | [] => []
  | [a] =>
    let n := a.toNat
    [digit (n / 4), digit (n % 4 * 16), '=', '=']
  | [a, b] =>
    let n := a.toNat * 256 + b.toNat
    [digit (n / 1024), digit (n / 16 % 64), digit (n % 16 * 4), '=']
  | a :: b :: c :: rest =>
    let n := (a.toNat * 256 + b.toNat) * 256 + c.toNat
    digit (n / 262144) :: digit (n / 4096 % 64) :: digit (n / 64 % 64) :: digit (n % 64)
      :: encode rest

/-- Where a reader stands: how many digits of a group of four it has met, those of their bits that
complete no byte yet, and the fill behind the last digit. -/
structure Place where
  digits : Nat := 0
  bits : Nat := 0
  fill : Nat := 0
  /-- There has been fill, if only further in front. -/
  filled : Bool := false

/-- Every digit of a group but the first completes a byte. -/
def Place.meet (place : Place) (n : Nat) : List UInt8 × Place :=
  match place.digits with
  | 0 => ([], { place with digits := 1, bits := n, fill := 0 })
  | 1 => ([byte (place.bits * 4 + n / 16)], { place with digits := 2, bits := n % 16, fill := 0 })
  | 2 => ([byte (place.bits * 16 + n / 4)], { place with digits := 3, bits := n % 4, fill := 0 })
  | _ => ([byte (place.bits * 64 + n)], { place with digits := 0, bits := 0, fill := 0 })

/-- Reads up to the fill of a group. A strict reader refuses all characters that are no digits, digits
behind fill, and anything behind the fill of a group; another one skips them. -/
def readFrom? (strict : Bool) (place : Place) : List Char → Option (List UInt8)
  | [] => if place.digits = 0 then some [] else none
  | c :: rest =>
    if c = '=' then
      if place.digits < 2 then readFrom? strict { place with filled := true } rest
      else if place.digits + place.fill + 1 < 4 then
        readFrom? strict { place with fill := place.fill + 1, filled := true } rest
      else if strict && !rest.isEmpty then none
      else some []
    else
      match digitValue? c with
      | none => if strict then none else readFrom? strict place rest
      | some n =>
        if strict && place.filled then none
        else (readFrom? strict (place.meet n).2 rest).map ((place.meet n).1 ++ ·)

def read? (strict : Bool) (text : List Char) : Option (List UInt8) :=
  if strict && text.head? == some '=' then none else readFrom? strict {} text

def isWritten (text : List Char) : Bool := (read? true text).any fun content => encode content == text

def decode? (text : List Char) : Option (List UInt8) :=
  if isWritten text then read? false text else none

end ApiSchema.Base64
