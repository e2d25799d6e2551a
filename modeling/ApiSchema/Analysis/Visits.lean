import ApiSchema.Analysis.Error
import ApiSchema.Analysis.Notes
import ApiSchema.Schema.Walk

/-!
What is checked at the visits of a walk: every name that is referred to has a definition, structs
have fields and enums have values, nothing is nested in itself, and the values of an enum differ
from each other. A walk also says in which order structs and enums are met.
-/

namespace ApiSchema.Schema

def checkBound (s : Schema) : List Visit → Checked Unit
  | [] => .ok ()
  | .reference name location :: rest =>
    if (s.definition? name).isSome then checkBound s rest else refuse (.unknownType name location)
  | _ :: rest => checkBound s rest

def checkReferences (s : Schema) : Checked Unit := s.checkBound s.walk.visits

def checkNotEmpty (s : Schema) : List Visit → Checked Unit
  | [] => .ok ()
  | .struct id :: rest =>
    let t := s.struct id
    if t.fields.isEmpty then refuse (.emptyStruct t.name t.location) else checkNotEmpty s rest
  | .enum id :: rest =>
    let e := s.enum id
    if e.values.isEmpty then refuse (.emptyEnum e.name e.location) else checkNotEmpty s rest
  | _ :: rest => checkNotEmpty s rest

/-- A walk without end is noticed only if nothing empty is met before. -/
def checkEmptiness (s : Schema) : Checked Unit := do
  let w := s.walk
  s.checkNotEmpty w.visits
  if w.ends then return else .error .endless

def structsMet (visits : List Visit) : List StructId :=
  visits.filterMap fun v => match v with
    | .struct id => some id
    | _ => none

def enumsMet (visits : List Visit) : List EnumId :=
  visits.filterMap fun v => match v with
    | .enum id => some id
    | _ => none

def firsts (ids : List Nat) : List Nat :=
  ids.foldl (fun kept id => if kept.contains id then kept else kept ++ [id]) []

/-- The structs and enums of a schema, each once and in the order in which they are met. -/
def collectTypes (s : Schema) : Schema :=
  let visits := s.walk.visits
  { s with structOrder := firsts (structsMet visits), enumOrder := firsts (enumsMet visits) }

def checkRepeatedValues (s : Schema) : List Visit → Checked Unit
  | [] => .ok ()
  | .enum id :: rest =>
    let e := s.enum id
    if hasRepeats (e.values.map (·.text)) then refuse (.repeatedValues e.name e.location)
    else checkRepeatedValues s rest
  | _ :: rest => checkRepeatedValues s rest

def checkRepetition (s : Schema) : Checked Unit := s.checkRepeatedValues s.walk.visits

end ApiSchema.Schema
