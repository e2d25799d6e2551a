import ApiSchema.Annotation
import ApiSchema.ClientName
import ApiSchema.Primitive

/-!
Declarations as they are written: types with the places of their parts, members that may spread
another struct, and no meaning given to names yet.
-/

namespace ApiSchema

mutual

/-- A struct has members as written and, once its spreads are replaced, the fields they stand for.
Structs and enums are named only by the analysis. -/
inductive TypeTree where
  | primitive (kind : Primitive) (location : Location)
  | optional (base : TypeTree) (location : Location)
  | array (base : TypeTree) (location : Location)
  | reference (name : String) (location : Location)
  | struct (name : String) (members : List MemberTree) (fields : List FieldTree) (location : Location)
  | enum (name : String) (values : List ValueTree) (location : Location)

inductive FieldTree where
  | mk (name : String) (type : TypeTree) (secret : Bool) (notes : List Note) (location : Location)

inductive MemberTree where
  | field (f : FieldTree)
  | spread (name : String) (nameLocation location : Location)

/-- A member of an enum; its data is a struct. -/
inductive ValueTree where
  | mk (text : String) (data : Option TypeTree) (notes : List Note) (location : Location)

end

instance : Inhabited TypeTree := ⟨.primitive .void {}⟩

namespace FieldTree

def name : FieldTree → String
  | mk name .. => name

def type : FieldTree → TypeTree
  | mk _ type .. => type

def location : FieldTree → Location
  | mk _ _ _ _ location => location

def addNote : FieldTree → Note → FieldTree
  | mk name type secret notes location, note => mk name type secret (notes ++ [note]) location

end FieldTree

def ValueTree.text : ValueTree → String
  | mk text .. => text

def Note.annotations (notes : List Note) : List Annotation := notes.map (·.content)

mutual

/-- Two types are the same description, wherever they stand and however they are named. -/
def TypeTree.isEqual : TypeTree → TypeTree → Bool
  | .primitive k _, .primitive l _ => k == l
  | .optional a _, .optional b _ => a.isEqual b
  | .array a _, .array b _ => a.isEqual b
  | .reference m _, .reference n _ => m == n
  | .struct _ ms fs _, .struct _ ns gs _ => FieldTree.areEqual fs gs && MemberTree.areEqual ms ns
  | .enum _ vs _, .enum _ ws _ => ValueTree.areEqual vs ws
  | _, _ => false

def FieldTree.isEqual : FieldTree → FieldTree → Bool
  | .mk m a s notes _, .mk n b t others _ =>
    m == n && s == t && Note.annotations notes == Note.annotations others && a.isEqual b

def MemberTree.isEqual : MemberTree → MemberTree → Bool
  | .field f, .field g => f.isEqual g
  | .spread m _ _, .spread n _ _ => m == n
  | _, _ => false

def ValueTree.isEqual : ValueTree → ValueTree → Bool
  | .mk m a notes _, .mk n b others _ =>
    m == n && Note.annotations notes == Note.annotations others && ValueTree.dataEqual a b

def ValueTree.dataEqual : Option TypeTree → Option TypeTree → Bool
  | none, none => true
  | some a, some b => a.isEqual b
  | _, _ => false

def FieldTree.areEqual : List FieldTree → List FieldTree → Bool
  | [], [] => true
  | f :: fs, g :: gs => f.isEqual g && FieldTree.areEqual fs gs
  | _, _ => false

def MemberTree.areEqual : List MemberTree → List MemberTree → Bool
  | [], [] => true
  | m :: ms, n :: ns => m.isEqual n && MemberTree.areEqual ms ns
  | _, _ => false

def ValueTree.areEqual : List ValueTree → List ValueTree → Bool
  | [], [] => true
  | v :: vs, w :: ws => v.isEqual w && ValueTree.areEqual vs ws
  | _, _ => false

end

def TypeTree.name : TypeTree → String
  | .primitive kind _ => kind.name
  | .optional base _ => base.name ++ "?"
  | .array base _ => base.name ++ "[]"
  | .reference name _ => name
  | .struct name .. => name
  | .enum name .. => name

structure TypeDeclaration where
  name : String
  type : TypeTree
  notes : List Note
  location : Location

structure ErrorDeclaration where
  name : String
  data : TypeTree
  notes : List Note
  location : Location

structure FunctionDeclaration where
  name : String
  members : List MemberTree
  returns : TypeTree
  notes : List Note
  /-- Declared with the older keyword `get`. -/
  isGetter : Bool
  location : Location

def TypeTree.isPrimitive (kind : Primitive) : TypeTree → Bool
  | .primitive k _ => k == kind
  | _ => false

def FunctionDeclaration.clientName (f : FunctionDeclaration) : String :=
  ApiSchema.clientName f.name f.isGetter (f.returns.isPrimitive .bool)

structure SchemaTree where
  types : List TypeDeclaration := []
  errors : List ErrorDeclaration := []
  functions : List FunctionDeclaration := []
  warnings : List String := []

end ApiSchema
