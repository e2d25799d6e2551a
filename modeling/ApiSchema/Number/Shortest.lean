import ApiSchema.Number.Binary64

/-!
Shortest decimal text of a floating-point number: the fewest digits that read back as the same
number, and among those the nearest to it. The layout of the digits is a record of its own.
-/

namespace ApiSchema

namespace Shortest

/-- The real numbers that round to a positive number: a quotient with the two ends of its interval
over the same denominator. The ends belong to it if the mantissa is even. -/
structure Interval where
  low : Nat
  value : Nat
  high : Nat
  denominator : Nat
  closed : Bool

def Interval.ofFinite (mantissa : Nat) (exponent : Int) : Interval :=
  let below := if mantissa = power 2 52 ∧ Binary64.leastExponent < exponent then 1 else 2
  let (n, d) := Binary64.quotient 1 (exponent - 2)
  ⟨(4 * mantissa - below) * n, 4 * mantissa * n, (4 * mantissa + 2) * n, d, mantissa % 2 == 0⟩

def Interval.contains (i : Interval) (digits : Nat) (exponent : Int) : Bool :=
  let (x, scale) :=
    if exponent < 0 then (digits * i.denominator, power 10 exponent.natAbs)
    else (digits * power 10 exponent.natAbs * i.denominator, 1)
  if i.closed then i.low * scale ≤ x && x ≤ i.high * scale
  else i.low * scale < x && x < i.high * scale

/-- The grid point under the value when the last digit has weight `10 ^ exponent`, and whether the
point above it is nearer. -/
def Interval.under (i : Interval) (exponent : Int) : Nat × Bool :=
  let (n, d) :=
    if exponent < 0 then (i.value * power 10 exponent.natAbs, i.denominator)
    else (i.value, i.denominator * power 10 exponent.natAbs)
  let q := n / d
  let r := n % d
  (q, d < 2 * r || (d == 2 * r && q % 2 == 1))

/-- The number of digits before the decimal point, zero or negative for small numbers. -/
def Interval.magnitude (i : Interval) : Int :=
  let guess : Int := ((i.value.log2 : Int) - i.denominator.log2) * 30103 / 100000
  let reaches (k : Int) : Bool :=
    if k < 0 then i.denominator ≤ i.value * power 10 k.natAbs
    else i.denominator * power 10 k.natAbs ≤ i.value
  if reaches (guess + 1) then guess + 2
  else if reaches guess then guess + 1
  else if reaches (guess - 1) then guess
  else guess - 1

/-- Tries grids of `count`, `count + 1`, … digits, at most `more` of them. -/
def Interval.search (i : Interval) (magnitude : Int) : (count more : Nat) → Nat × Int
  | count, 0 => let e := magnitude - count; ((i.under e).1, e)
  | count, more + 1 =>
    let e := magnitude - count
    let (under, upper) := i.under e
    let (near, far) := if upper then (under + 1, under) else (under, under + 1)
    if i.contains near e then (near, e)
    else if i.contains far e then (far, e)
    else search i magnitude (count + 1) more

def dropZeros : (fuel : Nat) → Nat → Int → Nat × Int
  | 0, n, e => (n, e)
  | fuel + 1, n, e => if n % 10 = 0 ∧ n ≠ 0 then dropZeros fuel (n / 10) (e + 1) else (n, e)

/-- The shortest decimal that reads back as a positive number, as digits and exponent. -/
def decimal (mantissa : Nat) (exponent : Int) : Nat × Int :=
  let i := Interval.ofFinite mantissa exponent
  let (digits, e) := i.search i.magnitude 1 17
  dropZeros 18 digits e

/-- How digits are laid out: from the exponent `positionalBelow` on, and below `positionalFrom`,
the scientific form is used. -/
structure Layout where
  positionalFrom : Int
  positionalBelow : Int
  fraction : String
  exponentWidth : Nat

/-- Whole numbers keep one zero behind the point, and an exponent has at least two digits. -/
def Layout.standard : Layout := ⟨-4, 16, ".0", 2⟩

def Layout.text (layout : Layout) (digits : Nat) (exponent : Int) : String :=
  let cs := digitsOf digits
  let count : Int := cs.length
  let leading := count + exponent - 1
  if layout.positionalFrom ≤ leading ∧ leading < layout.positionalBelow then
    if 0 ≤ exponent then
      String.ofList (cs ++ List.replicate exponent.toNat '0') ++ layout.fraction
    else if 0 ≤ leading then
      let split := (leading + 1).toNat
      String.ofList (cs.take split ++ '.' :: cs.drop split)
    else "0." ++ String.ofList (List.replicate (-leading - 1).toNat '0' ++ cs)
  else
    let mantissa := match cs with
      | [] => []
      | [c] => [c]
      | c :: rest => c :: '.' :: rest
    String.ofList mantissa ++ "e" ++ (if leading < 0 then "-" else "+")
      ++ padded layout.exponentWidth leading.natAbs

end Shortest

def Binary64.text : Binary64 → String
  | .nan => "nan"
  | .infinity negative => if negative then "-inf" else "inf"
  | .finite negative mantissa exponent =>
    let sign := if negative then "-" else ""
    if mantissa = 0 then sign ++ "0.0"
    else
      let (digits, e) := Shortest.decimal mantissa exponent
      sign ++ Shortest.Layout.standard.text digits e

end ApiSchema
