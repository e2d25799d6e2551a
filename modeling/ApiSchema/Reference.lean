/-!
Chains of references. A reference leads to nothing, to another reference or to its target; a chain
of finitely many references that has no end runs in a circle.
-/

namespace ApiSchema

inductive Link (ρ τ : Type) where
  | unbound
  | onward (next : ρ)
  | target (t : τ)
  deriving Repr

/-- How a chain ends: at a target, at a reference that leads to nothing, or not at all. -/
inductive ChainEnd (ρ τ : Type) where
  | target (t : τ)
  | unbound (last : ρ)
  | endless
  deriving DecidableEq, Repr

def Link.chase {ρ τ : Type} (link : ρ → Link ρ τ) : (fuel : Nat) → ρ → ChainEnd ρ τ
  | 0, _ => .endless
  | fuel + 1, r =>
    match link r with
    | .unbound => .unbound r
    | .onward next => chase link fuel next
    | .target t => .target t

inductive ResolveError where
  | unbound (name : String)
  | cycle (name : String)
  deriving DecidableEq, Repr

def ResolveError.message : ResolveError → String
  | .unbound name => "Type reference '" ++ name ++ "' is not resolved"
  | .cycle name => "Type '" ++ name ++ "' is an alias cycle"

def ChainEnd.resolve {ρ τ : Type} (nameOf : ρ → String) (start : ρ) :
    ChainEnd ρ τ → Except ResolveError τ
  | .target t => .ok t
  | .unbound last => .error (.unbound (nameOf last))
  | .endless => .error (.cycle (nameOf start))

end ApiSchema
