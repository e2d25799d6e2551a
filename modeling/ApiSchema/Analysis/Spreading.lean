import ApiSchema.Analysis.Error
import ApiSchema.Schema

/-!
Spreads give way to the fields they stand for. Each struct is expanded once, and before any struct
that spreads it. A later field of a known name takes the place of the earlier one.
-/

namespace ApiSchema

/-- The schema so far, with the structs whose expansion has begun and those where it goes on. -/
structure Spreading where
  schema : Schema
  begun : List StructId
  ongoing : List StructId

abbrev SpreadingPass := StateT Spreading (Except AnalysisFailure)

namespace Spreading

def update (f : Schema → Schema) : SpreadingPass Unit :=
  modify fun p => { p with schema := f p.schema }

/-- Adds a field at the end, or in the place of the one with its name. -/
def addField (s : Schema) (id : FieldId) : List FieldId → List FieldId
  | [] => [id]
  | other :: rest =>
    if (s.field other).name = (s.field id).name then id :: rest
    else other :: addField s id rest

def target (name : String) (location : Location) : SpreadingPass StructId := do
  let p ← get
  match p.schema.resolve name with
  | .error e => throw (.semantic (.unresolvedSpread e location))
  | .ok ⟨[], .struct id⟩ =>
    if p.ongoing.contains id then throw (.semantic (.cyclicSpread name location))
    else return id
  | .ok _ => throw (.semantic (.spreadOfNoStruct name location))

def expandMembers (descend : TypeBase → SpreadingPass Unit) :
    List Member → List FieldId → SpreadingPass (List FieldId)
  | [], fields => return fields
  | .field id :: rest, fields => do
    expandMembers descend rest (addField (← get).schema id fields)
  | .spread name _ location :: rest, fields => do
    let id ← target name location
    descend (.struct id)
    let s := (← get).schema
    expandMembers descend rest
      ((s.struct id).fields.foldl (fun fields id => addField s id fields) fields)

def visitField (descend : TypeBase → SpreadingPass Unit) (id : FieldId) : SpreadingPass Unit := do
  descend ((← get).schema.field id).type.base

def visitMember (descend : TypeBase → SpreadingPass Unit) : Member → SpreadingPass Unit
  | .field id => visitField descend id
  | .spread .. => return

/-- Expands a struct behind everything that is nested in it. -/
def expandStruct (descend : TypeBase → SpreadingPass Unit) (id : StructId) :
    SpreadingPass Unit := do
  modify fun p => { p with begun := id :: p.begun, ongoing := id :: p.ongoing }
  let t := (← get).schema.struct id
  t.members.forM (visitMember descend)
  t.fields.forM (visitField descend)
  let added ← expandMembers descend t.members []
  update fun s => s.setStruct id { s.struct id with members := [], fields := t.fields ++ added }
  modify fun p => { p with ongoing := p.ongoing.filter (· != id) }

def visitBase : (fuel : Nat) → TypeBase → SpreadingPass Unit
  | 0, _ => throw .endless
  | fuel + 1, base => do
    match base with
    | .primitive _ | .reference .. => return
    | .enum id =>
      ((← get).schema.enum id).values.forM fun v =>
        match v.data with
        | none => return
        | some id => visitBase fuel (.struct id)
    | .struct id =>
      if (← get).begun.contains id then return
      expandStruct (visitBase fuel) id

/-- A path enters each struct once, and between two structs there is at most one enum. -/
def bound (s : Schema) : Nat := 2 * s.structs.size + 3

def visitType (t : TypeUse) : SpreadingPass Unit := do
  visitBase (bound (← get).schema) t.base

def expandOperation (o : Operation) : SpreadingPass Operation := do
  let descend := visitBase (bound (← get).schema)
  o.members.forM (visitMember descend)
  o.args.forM (visitField descend)
  visitType o.returns
  let added ← expandMembers descend o.members []
  return { o with members := [], args := o.args ++ added }

def expandAll : SpreadingPass Unit := do
  (← get).schema.errors.forM fun e => visitType e.data
  (← get).schema.definitions.forM fun d => visitType d.type
  let operations ← (← get).schema.operations.mapM expandOperation
  update ({ · with operations })

end Spreading

def Schema.expandSpreads (s : Schema) : Checked Schema := do
  let (_, p) ← (Spreading.expandAll).run ⟨s, [], []⟩
  return p.schema

end ApiSchema
