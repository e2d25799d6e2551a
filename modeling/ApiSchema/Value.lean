import ApiSchema.Calendar.Timestamp
import ApiSchema.Number.Binary64
import ApiSchema.Number.Decimal

/-!
Dynamic values: what the codec converts, what documents hold, and what type descriptions are
written in. A mapping keeps its entries in order of insertion. Left out are instances of subclasses
of these types, and texts with half of a surrogate pair.
-/

namespace ApiSchema

inductive Value where
  | null
  | bool (b : Bool)
  | int (n : Int)
  | float (x : Binary64)
  | string (text : String)
  | list (items : List Value)
  | tuple (items : List Value)
  | mapping (entries : List (Value × Value))
  | bytes (content : List UInt8)
  | buffer (content : List UInt8)
  | decimal (d : Decimal)
  | date (d : Date)
  | timestamp (t : Timestamp)
  deriving Repr, Inhabited

namespace Value

def quotient? : Value → Option (Int × Nat)
  | bool b => some (if b then 1 else 0, 1)
  | int n => some (n, 1)
  | float (.finite negative mantissa exponent) =>
    let (n, d) := Binary64.quotient mantissa exponent
    some (if negative then -(n : Int) else n, d)
  | decimal (.finite negative coefficient exponent) =>
    let (n, d) := Decimal.quotient coefficient exponent
    some (if negative then -(n : Int) else n, d)
  | _ => none

def infinite? : Value → Option Bool
  | float (.infinity negative) => some negative
  | decimal (.infinity negative) => some negative
  | _ => none

def sameNumber (a b : Value) : Bool :=
  match a.quotient?, b.quotient? with
  | some (m, d), some (n, e) => m * e == n * d
  | _, _ =>
    match a.infinite?, b.infinite? with
    | some s, some t => s == t
    | _, _ => false

mutual

/-- Equality as look-ups and comparisons see it: numbers by value whatever their kind, mappings
whatever their order. -/
def same : Value → Value → Bool
  | null, null => true
  | string s, string t => s == t
  | list xs, list ys => sameItems xs ys
  | tuple xs, tuple ys => sameItems xs ys
  | mapping xs, mapping ys => xs.length == ys.length && sameEntries xs ys
  | bytes xs, bytes ys | bytes xs, buffer ys | buffer xs, bytes ys | buffer xs, buffer ys => xs == ys
  | date d, date e => d == e
  | timestamp t, timestamp u =>
    t.offset.isSome == u.offset.isSome
      && (t == u || (t.offset.isSome && t.toUniversal?.isSome && t.toUniversal? == u.toUniversal?))
  | a, b => sameNumber a b

def sameItems : List Value → List Value → Bool
  | [], [] => true
  | x :: xs, y :: ys => same x y && sameItems xs ys
  | _, _ => false

def sameEntries : List (Value × Value) → List (Value × Value) → Bool
  | [], _ => true
  | (key, item) :: xs, ys => ys.any (fun (k, i) => same key k && same item i) && sameEntries xs ys

end

instance : BEq Value := ⟨same⟩

def get? (entries : List (Value × Value)) (key : Value) : Option Value :=
  (entries.find? fun (k, _) => k.same key).map (·.2)

/-- Adds an entry; a known key keeps its place and takes the new item. -/
def insert (entries : List (Value × Value)) (key item : Value) : List (Value × Value) :=
  if entries.any fun (k, _) => k.same key then
    entries.map fun (k, i) => if k.same key then (k, item) else (k, i)
  else entries ++ [(key, item)]

/-- The item of a text key, if the value is a mapping that has it. -/
def field? (value : Value) (name : String) : Option Value :=
  match value with
  | mapping entries => get? entries (.string name)
  | _ => none

def isString : Value → Bool
  | string _ => true
  | _ => false

def isNull : Value → Bool
  | null => true
  | _ => false

mutual

def size : Value → Nat
  | list items | tuple items => 1 + sizeItems items
  | mapping entries => 1 + sizeEntries entries
  | string text => 1 + text.length
  | _ => 1

def sizeItems : List Value → Nat
  | [] => 0
  | item :: rest => size item + sizeItems rest

def sizeEntries : List (Value × Value) → Nat
  | [] => 0
  | (key, item) :: rest => size key + size item + sizeEntries rest

end

end Value

end ApiSchema
