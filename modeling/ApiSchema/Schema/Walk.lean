import ApiSchema.Schema

/-!
The order in which a schema is looked through: errors, definitions, operations, and under each of
them everything nested in it. References are met but not followed.
-/

namespace ApiSchema

inductive Visit where
  | error (e : ErrorKind)
  | definition (d : Definition)
  | operation (o : Operation)
  | field (id : FieldId)
  | value (v : EnumValue)
  | reference (name : String) (location : Location)
  /-- A struct or an enum is met once all that is nested in it has been. -/
  | struct (id : StructId)
  | enum (id : EnumId)
  deriving DecidableEq, Repr

/-- What is met on a walk, and whether the walk has an end. -/
structure Walk where
  visits : List Visit
  ends : Bool
  deriving DecidableEq, Repr

namespace Walk

def nowhere : Walk := ⟨[], true⟩

def meet (v : Visit) : Walk := ⟨[v], true⟩

/-- Goes on with a second walk, which is never begun when the first has no end. -/
def andThen (first : Walk) (second : Unit → Walk) : Walk :=
  if first.ends then
    let next := second ()
    ⟨first.visits ++ next.visits, next.ends⟩
  else first

def each {α : Type} (walk : α → Walk) : List α → Walk
  | [] => nowhere
  | a :: rest => (walk a).andThen fun _ => each walk rest

end Walk

namespace Schema

def walkField (s : Schema) (descend : TypeBase → Walk) (id : FieldId) : Walk :=
  (Walk.meet (.field id)).andThen fun _ => descend (s.field id).type.base

def walkMember (s : Schema) (descend : TypeBase → Walk) : Member → Walk
  | .field id => s.walkField descend id
  | .spread name nameLocation _ => .meet (.reference name nameLocation)

def walkValue (descend : TypeBase → Walk) (v : EnumValue) : Walk :=
  (Walk.meet (.value v)).andThen fun _ =>
    match v.data with
    | none => .nowhere
    | some t => descend (.struct t)

def walkBase (s : Schema) : (fuel : Nat) → TypeBase → Walk
  | _, .primitive _ => .nowhere
  | _, .reference name location => .meet (.reference name location)
  | 0, _ => ⟨[], false⟩
  | fuel + 1, .struct t =>
    (Walk.each (s.walkMember (walkBase s fuel)) (s.struct t).members).andThen fun _ =>
      (Walk.each (s.walkField (walkBase s fuel)) (s.struct t).fields).andThen fun _ =>
        .meet (.struct t)
  | fuel + 1, .enum e =>
    (Walk.each (walkValue (walkBase s fuel)) (s.enum e).values).andThen fun _ => .meet (.enum e)

def walkFrom (s : Schema) (base : TypeBase) : Walk := s.walkBase s.nestingBound base

def walkOperation (s : Schema) (o : Operation) : Walk :=
  (Walk.meet (.operation o)).andThen fun _ =>
    (Walk.each (s.walkMember s.walkFrom) o.members).andThen fun _ =>
      (Walk.each (s.walkField s.walkFrom) o.args).andThen fun _ => s.walkFrom o.returns.base

def walk (s : Schema) : Walk :=
  (Walk.each (fun e => (Walk.meet (.error e)).andThen fun _ => s.walkFrom e.data.base) s.errors).andThen
    fun _ =>
      (Walk.each (fun d => (Walk.meet (.definition d)).andThen fun _ => s.walkFrom d.type.base)
        s.definitions).andThen fun _ => Walk.each s.walkOperation s.operations

end Schema

end ApiSchema
