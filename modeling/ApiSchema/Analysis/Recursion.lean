import ApiSchema.Analysis.Error
import ApiSchema.Schema

/-!
A type may refer to itself through a struct or an enum, unless its required fields alone lead back
to it. Both searches keep the aliases they went through, so that each alias is gone through once.
-/

namespace ApiSchema

abbrev AliasSearch := StateM (List String)

namespace AliasSearch

/-- Some item passes; the items behind it are not looked at. -/
def anyOf {α : Type} (test : α → AliasSearch Bool) : List α → AliasSearch Bool
  | [] => return false
  | a :: rest => do
    if ← test a then return true
    anyOf test rest

/-- All items pass; the items behind one that fails are not looked at. -/
def allOf {α : Type} (test : α → AliasSearch Bool) : List α → AliasSearch Bool
  | [] => return true
  | a :: rest => do
    if ← test a then allOf test rest else return false

end AliasSearch

namespace Schema

/-- No search for a recursion has longer paths: every alias is gone through once, and between two
aliases nothing nested is entered twice. -/
def recursionBound (s : Schema) : Nat := (s.definitions.length + 2) * (s.nestingBound + 2)

def reachesName (s : Schema) (name : String) : (fuel : Nat) → TypeBase → AliasSearch Bool
  | 0, _ => return false
  | fuel + 1, base => do
    match base with
    | .primitive _ => return false
    | .reference other _ =>
      if other = name then return true
      match s.definition? other with
      | none => return false
      | some d =>
        if d.type.isNested || (← get).contains other then return false
        modify (other :: ·)
        reachesName s name fuel d.type.base
    | .struct id =>
      AliasSearch.anyOf (fun id => reachesName s name fuel (s.field id).type.base) (s.struct id).fields
    | .enum id =>
      AliasSearch.anyOf
        (fun v => match v.data with
          | none => return false
          | some id => reachesName s name fuel (.struct id))
        (s.enum id).values

/-- Every value of the type holds another value of the named type. -/
def requiresName (s : Schema) (name : String) : (fuel : Nat) → TypeUse → AliasSearch Bool
  | 0, _ => return false
  | fuel + 1, type => do
    match type with
    | ⟨_ :: _, _⟩ | ⟨[], .primitive _⟩ => return false
    | ⟨[], .reference other _⟩ =>
      if other = name then return true
      match s.definition? other with
      | some ⟨_, ⟨[], .reference next location⟩, _, _⟩ =>
        if (← get).contains other then return false
        modify (other :: ·)
        requiresName s name fuel ⟨[], .reference next location⟩
      | _ => return false
    | ⟨[], .struct id⟩ =>
      AliasSearch.anyOf (fun id => requiresName s name fuel (s.field id).type) (s.struct id).fields
    | ⟨[], .enum id⟩ =>
      AliasSearch.allOf
        (fun v => match v.data with
          | none => return false
          | some id => requiresName s name fuel ⟨[], .struct id⟩)
        (s.enum id).values

def isRecursive (s : Schema) (d : Definition) : Bool :=
  ((s.reachesName d.name s.recursionBound d.type.base).run []).1

def isEndless (s : Schema) (d : Definition) : Bool :=
  ((s.requiresName d.name s.recursionBound d.type).run []).1

def checkRecursions (s : Schema) : Checked Unit :=
  s.definitions.forM fun d =>
    if ¬ s.isRecursive d then .ok ()
    else if ¬ d.type.isNested then refuse (.recursiveAlias d.name d.location)
    else if s.isEndless d then refuse (.endlessType d.name d.location)
    else .ok ()

end Schema

end ApiSchema
