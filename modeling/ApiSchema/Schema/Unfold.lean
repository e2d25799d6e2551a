import ApiSchema.Schema
import ApiSchema.Tree

/-!
Types of a schema written out in full, and their equality as descriptions.
-/

namespace ApiSchema.Schema

def wrap (suffixes : List Suffix) (base : TypeTree) : TypeTree :=
  suffixes.foldr
    (fun suffix tree => match suffix with
      | .optional => .optional tree {}
      | .array => .array tree {})
    base

/-- The tree of a base; `fuel` bounds the nesting that is written out. -/
def unfold (s : Schema) : (fuel : Nat) → TypeBase → TypeTree
  | _, .primitive kind => .primitive kind {}
  | _, .reference name location => .reference name location
  | 0, .struct id => .struct (s.struct id).name [] [] (s.struct id).location
  | 0, .enum id => .enum (s.enum id).name [] (s.enum id).location
  | fuel + 1, .struct id =>
    let t := s.struct id
    let tree (id : FieldId) : FieldTree :=
      let f := s.field id
      .mk f.name (wrap f.type.suffixes (unfold s fuel f.type.base)) f.secret f.notes f.location
    let member : Member → MemberTree
      | .field id => .field (tree id)
      | .spread name nameLocation location => .spread name nameLocation location
    .struct t.name (t.members.map member) (t.fields.map tree) t.location
  | fuel + 1, .enum id =>
    let e := s.enum id
    let value (v : EnumValue) : ValueTree :=
      .mk v.text (v.data.map fun id => unfold s fuel (.struct id)) v.notes v.location
    .enum e.name (e.values.map value) e.location

def tree (s : Schema) (t : TypeUse) : TypeTree :=
  wrap t.suffixes (s.unfold s.nestingBound t.base)

def sameType (s : Schema) (t u : TypeUse) : Bool := (s.tree t).isEqual (s.tree u)

end ApiSchema.Schema
