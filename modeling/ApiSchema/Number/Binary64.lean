import ApiSchema.Number.Digits

/-!
Binary floating-point numbers of double precision, as exact values. A finite number is a mantissa
of at most 53 bits times a power of two; its form is unique because the mantissa has all 53 bits
unless the exponent is the least one.
-/

namespace ApiSchema

inductive Binary64 where
  | nan
  | infinity (negative : Bool)
  | finite (negative : Bool) (mantissa : Nat) (exponent : Int)
  deriving DecidableEq, Repr, Inhabited

namespace Binary64

def leastExponent : Int := -1074

def greatestExponent : Int := 971

def zero (negative : Bool) : Binary64 := .finite negative 0 leastExponent

/-- A quotient rounded to a whole number, halves to the even neighbour. -/
def roundDiv (num den : Nat) : Nat :=
  let q := num / den
  let r := num % den
  if 2 * r < den then q else if den < 2 * r then q + 1 else q + q % 2

def scaled (num den : Nat) (exponent : Int) : Nat × Nat :=
  if exponent < 0 then (num * power 2 exponent.natAbs, den)
  else (num, den * power 2 exponent.natAbs)

/-- The exponent at which the mantissa of a positive quotient has 53 bits. -/
def fittingExponent (num den : Nat) : Int :=
  let guess : Int := (num.log2 : Int) - den.log2 - 52
  let (n, d) := scaled num den guess
  if n / d < power 2 52 then guess - 1 else if power 2 53 ≤ n / d then guess + 1 else guess

/-- The number nearest to a quotient, of two equally near the one with the even mantissa. -/
def ofQuotient (negative : Bool) (num den : Nat) : Binary64 :=
  if num = 0 then zero negative
  else
    let exponent := max (fittingExponent num den) leastExponent
    let (n, d) := scaled num den exponent
    let mantissa := roundDiv n d
    let (mantissa, exponent) :=
      if mantissa = power 2 53 then (power 2 52, exponent + 1) else (mantissa, exponent)
    if greatestExponent < exponent then .infinity negative
    else .finite negative mantissa exponent

/-- The number nearest to `coefficient * 10 ^ exponent`. Far outside of the range,
which the number of digits before the point tells, the power of ten is not worked out. -/
def ofDecimal (negative : Bool) (coefficient : Nat) (exponent : Int) : Binary64 :=
  let size : Int := (digitsOf coefficient).length + exponent
  if coefficient = 0 then zero negative
  else if 400 < size then .infinity negative
  else if size < -400 then zero negative
  else if exponent < 0 then ofQuotient negative coefficient (power 10 exponent.natAbs)
  else ofQuotient negative (coefficient * power 10 exponent.natAbs) 1

def isFinite : Binary64 → Bool
  | .finite .. => true
  | _ => false

def quotient (mantissa : Nat) (exponent : Int) : Nat × Nat :=
  if exponent < 0 then (mantissa, power 2 exponent.natAbs)
  else (mantissa * power 2 exponent.natAbs, 1)

def toInt? : Binary64 → Option Int
  | .finite negative mantissa exponent =>
    let (n, d) := quotient mantissa exponent
    if n % d = 0 then some (if negative then -((n / d : Nat) : Int) else (n / d : Nat)) else none
  | _ => none

end Binary64

end ApiSchema
