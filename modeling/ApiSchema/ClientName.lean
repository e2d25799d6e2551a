import ApiSchema.Text.Case

/-!
The names under which generated clients offer operations.
-/

namespace ApiSchema

/-- A getter is offered under a longer name, unless it returns a truth value. -/
def clientName (name : String) (isGetter returnsBool : Bool) : String :=
  if isGetter && !returnsBool then "get" ++ Text.capitalised name else name

end ApiSchema
