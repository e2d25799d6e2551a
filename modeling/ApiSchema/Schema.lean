import ApiSchema.Annotation
import ApiSchema.ClientName
import ApiSchema.Primitive
import ApiSchema.Reference

/-!
Schemas as graphs. Structs, enums and fields are numbered, because one of them can be part of
several declarations: equal inline types are one type, a spread shares the fields it stands for,
and all of them see what the analysis changes. A reference is bound to the first definition of its
name.
-/

namespace ApiSchema

abbrev StructId := Nat

abbrev EnumId := Nat

abbrev FieldId := Nat

inductive Suffix where
  | optional
  | array
  deriving DecidableEq, Repr

inductive TypeBase where
  | primitive (kind : Primitive)
  | reference (name : String) (location : Location)
  | struct (id : StructId)
  | enum (id : EnumId)
  deriving DecidableEq, Repr, Inhabited

/-- A type: a base with suffixes, the outermost first. -/
structure TypeUse where
  suffixes : List Suffix
  base : TypeBase
  deriving DecidableEq, Repr, Inhabited

structure Field where
  name : String
  type : TypeUse
  secret : Bool
  notes : List Note
  location : Location
  deriving DecidableEq, Repr, Inhabited

inductive Member where
  | field (id : FieldId)
  | spread (name : String) (nameLocation location : Location)
  deriving DecidableEq, Repr

/-- A struct as written has members; the fields they stand for replace them. -/
structure Struct where
  name : String
  members : List Member
  fields : List FieldId
  location : Location
  deriving DecidableEq, Repr, Inhabited

structure EnumValue where
  text : String
  data : Option StructId
  notes : List Note
  location : Location
  deriving DecidableEq, Repr, Inhabited

structure Enum where
  name : String
  values : List EnumValue
  location : Location
  deriving DecidableEq, Repr, Inhabited

structure Definition where
  name : String
  type : TypeUse
  notes : List Note
  location : Location
  deriving DecidableEq, Repr, Inhabited

structure ErrorKind where
  name : String
  data : TypeUse
  notes : List Note
  location : Location
  deriving DecidableEq, Repr, Inhabited

structure Operation where
  name : String
  members : List Member
  args : List FieldId
  returns : TypeUse
  notes : List Note
  isGetter : Bool
  location : Location
  deriving DecidableEq, Repr, Inhabited

structure Schema where
  structs : Array Struct := #[]
  enums : Array Enum := #[]
  fields : Array Field := #[]
  definitions : List Definition := []
  errors : List ErrorKind := []
  operations : List Operation := []
  /-- Structs and enums in the order in which the analysis found them. -/
  structOrder : List StructId := []
  enumOrder : List EnumId := []
  warnings : List String := []
  deriving DecidableEq, Repr, Inhabited

namespace TypeUse

def ofBase (base : TypeBase) : TypeUse := ⟨[], base⟩

def primitive (kind : Primitive) : TypeUse := ofBase (.primitive kind)

def isPrimitive (t : TypeUse) (kind : Primitive) : Bool :=
  t.suffixes.isEmpty && t.base == .primitive kind

def isOptional (t : TypeUse) : Bool := t.suffixes.head? == some .optional

def isNested (t : TypeUse) : Bool :=
  t.suffixes.isEmpty && match t.base with
    | .struct _ | .enum _ => true
    | _ => false

end TypeUse

def Operation.clientName (o : Operation) : String :=
  ApiSchema.clientName o.name o.isGetter (o.returns.isPrimitive .bool)

def Suffix.text : Suffix → String
  | .optional => "?"
  | .array => "[]"

namespace Schema

def struct (s : Schema) (id : StructId) : Struct := s.structs[id]?.getD default

def enum (s : Schema) (id : EnumId) : Enum := s.enums[id]?.getD default

def field (s : Schema) (id : FieldId) : Field := s.fields[id]?.getD default

def setStruct (s : Schema) (id : StructId) (t : Struct) : Schema :=
  { s with structs := s.structs.setIfInBounds id t }

def setEnum (s : Schema) (id : EnumId) (e : Enum) : Schema :=
  { s with enums := s.enums.setIfInBounds id e }

def setField (s : Schema) (id : FieldId) (f : Field) : Schema :=
  { s with fields := s.fields.setIfInBounds id f }

def baseName (s : Schema) : TypeBase → String
  | .primitive kind => kind.name
  | .reference name _ => name
  | .struct id => (s.struct id).name
  | .enum id => (s.enum id).name

def typeName (s : Schema) (t : TypeUse) : String :=
  t.suffixes.foldr (fun suffix text => text ++ suffix.text) (s.baseName t.base)

def definition? (s : Schema) (name : String) : Option Definition :=
  s.definitions.find? (·.name == name)

def link (s : Schema) (name : String) : Link String TypeUse :=
  match s.definition? name with
  | none => .unbound
  | some d =>
    match d.type with
    | ⟨[], .reference next _⟩ => .onward next
    | type => .target type

/-- The type behind a name; a chain that visits more names than are defined has no end. -/
def resolve (s : Schema) (name : String) : Except ResolveError TypeUse :=
  (Link.chase s.link (s.definitions.length + 1) name).resolve id name

def unwrap (s : Schema) (t : TypeUse) : Except ResolveError TypeUse :=
  match t with
  | ⟨[], .reference name _⟩ => s.resolve name
  | t => .ok t

def subjectName (s : Schema) (t : TypeUse) : Except ResolveError String :=
  (s.unwrap (.ofBase t.base)).map s.typeName

/-- No path through nested structs and enums is longer unless it returns to one of them. -/
def nestingBound (s : Schema) : Nat := s.structs.size + s.enums.size + 1

end Schema

end ApiSchema

namespace ApiSchema.Schema

/-- Schemas under construction: structs, enums and fields are numbered as they are added. -/
abbrev Loading := StateM Schema

def addStruct (t : Struct) : Loading StructId := do
  let s ← get
  set { s with structs := s.structs.push t }
  return s.structs.size

def addEnum (e : Enum) : Loading EnumId := do
  let s ← get
  set { s with enums := s.enums.push e }
  return s.enums.size

def addField (f : Field) : Loading FieldId := do
  let s ← get
  set { s with fields := s.fields.push f }
  return s.fields.size

end ApiSchema.Schema
