import ApiSchema.Codec.Scalar
import ApiSchema.TypeText

/-!
Conversion of values by their types. Types are values themselves: a text names a type or adds a
suffix to one, a list holds the members of an enum and a mapping the fields of a struct. What
differs between encoding and decoding is how scalars and the members of tagged enums are written.
-/

namespace ApiSchema.Codec

abbrev TypeTable := List (Value × Value)

abbrev Conversion := (path : String) → (type value : Value) → Result Value

/-- Follows names through the table until one is met again or has no entry. -/
def settle (table : TypeTable) : (fuel : Nat) → (met : List String) → Value → Value
  | fuel + 1, met, .string name =>
    if met.contains name then .string name
    else
      match Value.get? table (.string name) with
      | some next => settle table fuel (name :: met) next
      | none => .string name
  | _, _, type => type

def isOptionalText (text : String) : Bool := text.toList.getLast? == some '?'

/-- A null is a value of the type that a name stands for. -/
def admitsNull (table : TypeTable) (name : String) : Bool :=
  match settle table (table.length + 1) [] (.string name) with
  | .string last => isOptionalText last || last == "void"
  | _ => false

def checkNull (table : TypeTable) (path : String) (type value : Value) : Result Unit :=
  match type, value with
  | .string name, .null => if admitsNull table name then .ok () else .error (.error (.null path))
  | _, _ => .ok ()

def expectedText : Value → Result String
  | .string name => .ok name
  | type => described type

def refuse {α : Type} (path : String) (type value : Value) : Result α := do
  mismatch path (← expectedText type) value

/-- What a collection holds, a mapping being the collection of its keys. -/
def parts? : Value → Option (List Value)
  | .list items | .tuple items => some items
  | .mapping entries => some (entries.map (·.1))
  | .bytes content | .buffer content => some (content.map fun b => .int b.toNat)
  | _ => none

/-- A member with data is a pair of a tag and a type. -/
def memberPair (member : Value) : Result (Value × Value) :=
  match parts? member with
  | some [tag, type] => .ok (tag, type)
  | some _ => .error .memberSize
  | none => .error .memberKind

def below (path : String) (key : Value) : Result String := do
  return path ++ "." ++ (← plain key)

def textKey (name : String) : Value := .string name

/-- Data without any content is left out behind its tag. -/
def encodedMember (tag data : Value) : Result Value :=
  match data with
  | .mapping entries =>
    .ok (if entries.all fun (_, item) => item.isNull then tag else .list [tag, data])
  | _ => .error .encodedNoRecord

def encodeMembers (convert : Conversion) (path : String) (type value tag : Value)
    (data : List (Value × Value)) : List Value → Result Value
  | [] => refuse path type value
  | .string member :: rest =>
    if tag.same (.string member) then .ok (.string member)
    else encodeMembers convert path type value tag data rest
  | member :: rest => do
    let (own, dataType) ← memberPair member
    if own.same tag then
      encodedMember own (← convert (← below path own) dataType (.mapping data))
    else encodeMembers convert path type value tag data rest

/-- A value of a tagged enum is a mapping with its tag among the fields of its data. -/
def encodeTagged (convert : Conversion) (path : String) (members : List Value) (value : Value) :
    Result Value :=
  match value with
  | .mapping entries =>
    match Value.get? entries (textKey "tag") with
    | some tag =>
      let data := entries.filter fun (key, _) => !key.same (textKey "tag")
      encodeMembers convert path (.list members) value tag data members
    | none => refuse path (.list members) value
  | _ => refuse path (.list members) value

def decodedMember (tag data : Value) : Result Value :=
  match data with
  | .mapping entries => .ok (.mapping (Value.insert entries (textKey "tag") tag))
  | _ => .error .decodedNoRecord

/-- The data that comes with a tag; a tag alone has empty data. -/
def taggedData? (tag value : Value) : Option Value :=
  if tag.same value then some (.mapping [])
  else
    match value with
    | .list [own, data] => if own.same tag then some data else none
    | _ => none

def decodeMembers (convert : Conversion) (path : String) (type value : Value) :
    List Value → Result Value
  | [] => refuse path type value
  | .string member :: rest =>
    if value.same (.string member) then .ok (.mapping [(textKey "tag", .string member)])
    else decodeMembers convert path type value rest
  | member :: rest => do
    let (tag, dataType) ← memberPair member
    match taggedData? tag value with
    | some data => decodedMember tag (← convert (← below path tag) dataType data)
    | none => decodeMembers convert path type value rest

/-- A transmitted value of a tagged enum is a tag, alone or in front of its data. -/
def decodeTagged (convert : Conversion) (path : String) (members : List Value) (value : Value) :
    Result Value :=
  decodeMembers convert path (.list members) value members

/-- What sets the two ways of conversion apart. -/
structure Way where
  scalar : (path name : String) → Scalar → Value → Result Value
  tagged : Conversion → (path : String) → (members : List Value) → Value → Result Value

def Way.encoding [UrlNormaliser] : Way := ⟨encodeScalar, encodeTagged⟩

def Way.decoding [UrlNormaliser] : Way := ⟨decodeScalar, decodeTagged⟩

def convertPlainEnum (path : String) (members : List Value) (value : Value) : Result Value :=
  match value with
  | .string text =>
    if members.contains (.string text) then .ok value else refuse path (.list members) value
  | _ => refuse path (.list members) value

/-- Fields that a value lacks are null. -/
def convertFields (convert : Conversion) (path : String) (entries : List (Value × Value)) :
    List (Value × Value) → Result (List (Value × Value))
  | [] => .ok []
  | (key, type) :: rest => do
    let item ← convert (← below path key) type ((Value.get? entries key).getD .null)
    return (key, item) :: (← convertFields convert path entries rest)

def convertItems (convert : Conversion) (path : String) (type : Value) (index : Nat) :
    List Value → Result (List Value)
  | [] => .ok []
  | item :: rest => do
    let converted ← convert (path ++ "[" ++ index.repr ++ "]") type item
    return converted :: (← convertItems convert path type (index + 1) rest)

def convertSuffix (convert : Conversion) (path name : String) (suffix : Suffix) (inner : String)
    (value : Value) : Result Value :=
  match suffix with
  | .optional => if value.isNull then .ok .null else convert path (.string inner) value
  | .array =>
    match value with
    | .list items | .tuple items => do
      return .list (← convertItems convert path (.string inner) 0 items)
    | _ => mismatch path name value

def convertNamed (w : Way) (table : TypeTable) (convert : Conversion) (path name : String)
    (value : Value) : Result Value :=
  match TypeText.peel? name with
  | some (suffix, inner) => convertSuffix convert path name suffix inner value
  | none =>
    match Scalar.ofName? name with
    | some s => w.scalar path name s value
    | none =>
      match Value.get? table (.string name) with
      | none | some .null => .error (.error (.unknownType path name))
      | some type => convert path type value

/-- One step of a conversion, where `convert` is used for what is inside. -/
def convertStep (w : Way) (table : TypeTable) (convert : Conversion) : Conversion :=
  fun path type value => do
    checkNull table path type value
    match type with
    | .list members =>
      if members.all Value.isString then convertPlainEnum path members value
      else w.tagged convert path members value
    | .mapping fields =>
      match value with
      | .mapping entries => return .mapping (← convertFields convert path entries fields)
      | _ => refuse path type value
    | .string name => convertNamed w table convert path name value
    | type => do
      let text ← plain type
      .error (.error (.unknownType path text))

def convertWithin (w : Way) (table : TypeTable) : (fuel : Nat) → Conversion
  | 0 => fun _ _ _ => .error .endless
  | fuel + 1 => convertStep w table (convertWithin w table fuel)

/-- Between two steps into a value, no more types are met than the table has room for, unless names
refer to each other in a circle. -/
def bound (table : TypeTable) (type value : Value) : Nat :=
  (value.size + 3) * (type.size + Value.sizeEntries table + 2)

def convert (w : Way) (table : TypeTable) : Conversion := fun path type value =>
  convertWithin w table (bound table type value) path type value

def encode [UrlNormaliser] (table : TypeTable) : Conversion := convert .encoding table

def decode [UrlNormaliser] (table : TypeTable) : Conversion := convert .decoding table

end ApiSchema.Codec
