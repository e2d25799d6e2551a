import ApiSchema.Compatibility

/-!
The comparison with a function of its own for each direction, which says of each type whether it is
the older or the newer one. Both fail where a reference has no type.
-/

namespace ApiSchema.Compatibility

abbrev Check :=
  Findings → (path : String) → (old new : TypeUse) → Except ResolveError Findings

def nullable (s : Schema) (t : TypeUse) : Except ResolveError Bool := return (← s.unwrap t).isOptional

def mismatch (old new : Schema) (a b : TypeUse) : Breakage :=
  .incompatible (old.typeName a) (new.typeName b)

section Clients

variable (old new : Schema)

def clientField (check : Check) (path : String) (known : List Field) (f : Findings) (field : Field) :
    Except ResolveError Findings := do
  let path := s!"{path}.{field.name}"
  match lastField? known field.name with
  | some own => check f path own.type field.type
  | none => if ← nullable new field.type then return f else return f.report path .requiredAdded

/-- What the newer struct expects has to be among what the older one has. -/
def clientStructs (check : Check) (f : Findings) (path : String) (a b : Option StructId) :
    Except ResolveError Findings :=
  let visit := ⟨.toServer, a, b⟩
  if f.met.contains visit then return f
  else (new.dataFields b).foldlM (clientField new check path (old.dataFields a)) (f.meet visit)

def clientValue (check : Check) (path : String) (known : List EnumValue) (f : Findings)
    (value : EnumValue) : Except ResolveError Findings :=
  match lastValue? known value.text with
  | some later => clientStructs old new check f s!"{path}.{value.text}" value.data later.data
  | none => return f.report path (.valueRemoved value.text)

def clientBases (check : Check) (f : Findings) (path : String) (a b : TypeBase) :
    Except ResolveError Findings :=
  match a, b with
  | .struct t, .struct u => clientStructs old new check f path (some t) (some u)
  | _, _ =>
    if old.widens a b then return f
    else
      match a, b with
      | .enum d, .enum e =>
        (old.enum d).values.foldlM (clientValue old new check path (new.enum e).values) f
      | .primitive k, .primitive l =>
        if k == l then return f else return f.report path (mismatch old new (.ofBase a) (.ofBase b))
      | _, _ => return f.report path (mismatch old new (.ofBase a) (.ofBase b))

def clientToServerStep (check : Check) : Check := fun f path a b => do
  let a ← old.unwrap a
  let b ← new.unwrap b
  match a.suffixes, b.suffixes with
  | .optional :: inner, .optional :: expected => check f path ⟨inner, a.base⟩ ⟨expected, b.base⟩
  | _, .optional :: expected => check f path a ⟨expected, b.base⟩
  | .optional :: inner, _ => check (f.report path .wasOptional) path ⟨inner, a.base⟩ b
  | .array :: inner, .array :: expected =>
    check f (path ++ "[]") ⟨inner, a.base⟩ ⟨expected, b.base⟩
  | [], [] => clientBases old new check f path a.base b.base
  | _, _ => return f.report path (mismatch old new a b)

/-- The check of what older clients send to a newer server, where `bottom` is used below a depth. -/
def clientToServer (bottom : Check) : (depth : Nat) → Check
  | 0 => bottom
  | depth + 1 => clientToServerStep old new (clientToServer bottom depth)

end Clients

section Servers

variable (old new : Schema)

def serverField (check : Check) (path : String) (known : List Field) (f : Findings) (field : Field) :
    Except ResolveError Findings := do
  let path := s!"{path}.{field.name}"
  match lastField? known field.name with
  | some later => check f path field.type later.type
  | none =>
    let type ← old.unwrap field.type
    if type.isOptional then return f else return f.report path (.fieldMissing (old.typeName type))

/-- What the older struct had has to be among what the newer one has. -/
def serverStructs (check : Check) (f : Findings) (path : String) (a b : Option StructId) :
    Except ResolveError Findings :=
  let visit := ⟨.toClient, b, a⟩
  if f.met.contains visit then return f
  else (old.dataFields a).foldlM (serverField old check path (new.dataFields b)) (f.meet visit)

def serverValue (check : Check) (path : String) (known : List EnumValue) (f : Findings)
    (value : EnumValue) : Except ResolveError Findings :=
  match lastValue? known value.text with
  | some earlier => serverStructs old new check f s!"{path}.{value.text}" earlier.data value.data
  | none => return f.report path (.valueAdded value.text)

def serverBases (check : Check) (f : Findings) (path : String) (a b : TypeBase) :
    Except ResolveError Findings :=
  match a, b with
  | .struct t, .struct u => serverStructs old new check f path (some t) (some u)
  | _, _ =>
    if new.widens b a then return f
    else
      match a, b with
      | .enum d, .enum e =>
        (new.enum e).values.foldlM (serverValue old new check path (old.enum d).values) f
      | .primitive k, .primitive l =>
        if k == l then return f else return f.report path (mismatch old new (.ofBase a) (.ofBase b))
      | _, _ => return f.report path (mismatch old new (.ofBase a) (.ofBase b))

def serverToClientStep (check : Check) : Check := fun f path a b => do
  let a ← old.unwrap a
  let b ← new.unwrap b
  match a.suffixes, b.suffixes with
  | .optional :: inner, .optional :: given => check f path ⟨inner, a.base⟩ ⟨given, b.base⟩
  | .optional :: inner, _ => check f path ⟨inner, a.base⟩ b
  | _, .optional :: given => check (f.report path .becameOptional) path a ⟨given, b.base⟩
  | .array :: inner, .array :: given => check f (path ++ "[]") ⟨inner, a.base⟩ ⟨given, b.base⟩
  | [], [] => serverBases old new check f path a.base b.base
  | _, _ => return f.report path (mismatch old new a b)

/-- The check of what a newer server sends to older clients, where `bottom` is used below a
depth. -/
def serverToClient (bottom : Check) : (depth : Nat) → Check
  | 0 => bottom
  | depth + 1 => serverToClientStep old new (serverToClient bottom depth)

end Servers

def total (compare : Transfer.Comparison) : Check := fun f path old new => .ok (compare f path old new)

/-- No check of two types goes deeper. -/
def depth (old new : Schema) (a b : TypeUse) : Nat :=
  (⟨.toServer, old, new⟩ : Transfer).bound + a.suffixes.length + b.suffixes.length

section Versions

variable (old new : Schema)

def checkClients : Check := fun f path a b =>
  clientToServer old new (total fun f _ _ _ => f) (depth old new a b) f path a b

def checkServers : Check := fun f path a b =>
  serverToClient old new (total fun f _ _ _ => f) (depth old new a b) f path a b

def checkOperation (f : Findings) (o : Operation) : Except ResolveError Findings :=
  match new.operations.reverse.find? (·.name == o.name) with
  | none => return f.report o.name (.functionMissing o.name)
  | some p => do
    let f ← checkServers old new f s!"{o.name}.ret" o.returns p.returns
    let known := o.args.map old.field
    (p.args.map new.field).foldlM (clientField new (checkClients old new) s!"{o.name}.args" known) f

def checkError (f : Findings) (e : ErrorKind) : Except ResolveError Findings :=
  match new.errors.reverse.find? (·.name == e.name) with
  | none => return f
  | some later => checkServers old new f s!"{e.name}.data" e.data later.data

/-- All changes that break what was built for the older version, unless a reference has no type. -/
def checkCompatibility : Except ResolveError (List CompatibilityIssue) := do
  let f ← old.operations.foldlM (checkOperation old new) {}
  let f ← old.errors.foldlM (checkError old new) f
  return f.issues

end Versions

end ApiSchema.Compatibility
