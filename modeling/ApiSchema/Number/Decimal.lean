import ApiSchema.Number.Digits

/-!
Decimal numbers that keep their scale: a coefficient times a power of ten, where `1.5` and `1.50`
are different forms of one value.
-/

namespace ApiSchema

inductive Decimal where
  | finite (negative : Bool) (coefficient : Nat) (exponent : Int)
  | infinity (negative : Bool)
  | nan (negative signaling : Bool) (payload : Nat)
  deriving DecidableEq, Repr, Inhabited

namespace Decimal

def isFinite : Decimal → Bool
  | .finite .. => true
  | _ => false

def sign (negative : Bool) : String := if negative then "-" else ""

/-- Digits with a point before the last `places` of them. -/
def withPlaces (digits : List Char) (places : Nat) : List Char :=
  if places = 0 then digits
  else
    let digits := List.replicate (places + 1 - digits.length) '0' ++ digits
    digits.take (digits.length - places) ++ '.' :: digits.drop (digits.length - places)

def plainText : Decimal → String
  | .finite negative coefficient exponent =>
    let digits := digitsOf coefficient
    let body :=
      if 0 ≤ exponent then
        if coefficient = 0 then digits else digits ++ List.replicate exponent.toNat '0'
      else withPlaces digits exponent.natAbs
    sign negative ++ String.ofList body
  | .infinity negative => sign negative ++ "Infinity"
  | .nan negative signaling payload =>
    sign negative ++ (if signaling then "sNaN" else "NaN") ++ (if payload = 0 then "" else payload.repr)

/-- The form that shows the scale: an exponent is written when it is positive or when more than
five zeros would follow the point. -/
def text : Decimal → String
  | .finite negative coefficient exponent =>
    let digits := digitsOf coefficient
    let leading : Int := digits.length + exponent - 1
    if exponent ≤ 0 ∧ -6 ≤ leading then plainText (.finite negative coefficient exponent)
    else
      sign negative ++ String.ofList (withPlaces digits (digits.length - 1)) ++ "E"
        ++ (if leading < 0 then "-" else "+") ++ leading.natAbs.repr
  | d => plainText d

/-- The digits of a plain decimal numeral and the number of them behind its point. -/
def readPlain (digits : List Char) : List Char × Nat :=
  let whole := digits.takeWhile (· != '.')
  let fraction := (digits.dropWhile (· != '.')).drop 1
  (whole ++ fraction, fraction.length)

/-- Reads a numeral: a sign, digits with at most one point, and a decimal exponent. -/
def ofNumeral (numeral : List Char) : Decimal :=
  let (negative, body) := match numeral with
    | '-' :: body => (true, body)
    | body => (false, body)
  let isMark (c : Char) : Bool := c == 'e' || c == 'E'
  let (digits, places) := readPlain (body.takeWhile (!isMark ·))
  let exponent : Int := match (body.dropWhile (!isMark ·)).drop 1 with
    | '-' :: rest => -(digitsValue rest : Int)
    | '+' :: rest => digitsValue rest
    | rest => digitsValue rest
  .finite negative (digitsValue digits) (exponent - places)

def ofNat (n : Nat) : Decimal := .finite false n 0

def ofInt (n : Int) : Decimal := .finite (n < 0) n.natAbs 0

def quotient (coefficient : Nat) (exponent : Int) : Nat × Nat :=
  if exponent < 0 then (coefficient, power 10 exponent.natAbs)
  else (coefficient * power 10 exponent.natAbs, 1)

end Decimal

end ApiSchema
