/-!
Powers and sums of natural numbers; decimal digits and the numbers they stand for.
-/

namespace ApiSchema

def power (base exponent : Nat) : Nat := Nat.pow base exponent

def total (ns : List Nat) : Nat := ns.foldr (· + ·) 0

theorem power_zero (base : Nat) : power base 0 = 1 := rfl

theorem total_cons (n : Nat) (ns : List Nat) : total (n :: ns) = n + total ns := rfl

def isDigit (c : Char) : Bool := '0' ≤ c && c ≤ '9'

def digitValue (c : Char) : Nat := c.toNat - '0'.toNat

def digitsValue (digits : List Char) : Nat :=
  digits.foldl (fun n c => 10 * n + digitValue c) 0

def digitsOf (n : Nat) : List Char := n.repr.toList

/-- The digits of a number, filled up with zeros on the left. -/
def paddedDigits (width n : Nat) : List Char :=
  let digits := digitsOf n
  List.replicate (width - digits.length) '0' ++ digits

def padded (width n : Nat) : String := String.ofList (paddedDigits width n)

/-- A run of digits is longer than the longest that is converted to or from a number. -/
def exceedsDigitLimit (digits : Nat) : Bool := 4300 < digits

end ApiSchema
