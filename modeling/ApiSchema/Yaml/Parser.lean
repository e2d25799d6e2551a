import ApiSchema.Yaml.Lexer

/-!
Nodes of YAML documents, and how a stream of tokens is read as one. What is left out between tokens
is an empty scalar.
-/

namespace ApiSchema.Yaml

inductive Node where
  /-- Only a plain scalar without tag gets the kind that its text suggests. -/
  | scalar (tag : Option String) (plain : Bool) (text : String)
  | sequence (tag : Option String) (items : List Node)
  | mapping (tag : Option String) (entries : List (Node × Node))
  /-- A node inside of itself. -/
  | cycle
  deriving Inhabited

/-- Tokens ahead, the handles of tags, and the nodes of anchors so far. -/
structure Parsing where
  tokens : List Token
  handles : List (String × String)
  anchors : List (String × Node) := []

namespace Parsing

abbrev Parser := StateT Parsing Reading

def fail {α : Type} : Parser α := fun _ => malformed

def peek : Parser (Option Token) := return (← get).tokens.head?

def advance : Parser Unit := modify fun p => { p with tokens := p.tokens.drop 1 }

def accept (t : Token) : Parser Bool := do
  if (← peek) = some t then
    advance
    return true
  else return false

def isNext (ts : List Token) : Parser Bool := return (← peek).any ts.contains

def empty : Node := .scalar none true ""

/-- The tag of a node in full; an exclamation mark alone says nothing. -/
def resolveTag (t : Tag) : Parser String := do
  match t.handle with
  | none => return t.suffix
  | some handle =>
    match (← get).handles.lookup handle with
    | some start => return start ++ t.suffix
    | none => fail

def anchor? : Parser (Option String) := do
  match ← peek with
  | some (.anchor name) =>
    advance
    return some name
  | _ => return none

def tag? : Parser (Option String) := do
  match ← peek with
  | some (.tag t) =>
    advance
    return some (← resolveTag t)
  | _ => return none

/-- An anchor and a tag in front of a node, in either order. -/
def properties : Parser (Option String × Option String) := do
  match ← anchor? with
  | some name => return (some name, ← tag?)
  | none =>
    let tag ← tag?
    return (← anchor?, tag)

def setAnchor (name : Option String) (node : Node) : Parser Unit :=
  match name with
  | none => return
  | some name => modify fun p => { p with anchors := (name, node) :: p.anchors }

def checkNew (name : Option String) : Parser Unit := do
  match name with
  | none => return
  | some name => if ((← get).anchors.lookup name).isSome then fail else return

/-- A scalar is plain if nothing is said about its kind. -/
def scalarNode (tag : Option String) (plain : Bool) (text : String) : Node :=
  match tag with
  | none => .scalar none plain text
  | some "!" => .scalar none true text
  | some tag => .scalar (some tag) false text

def collectionTag (tag : Option String) : Option String := tag.filter (· != "!")

/-- Where a node stands: between brackets, in a block, or behind a key, where the entries of a
sequence may stand at the column of the key. -/
inductive Place where
  | flow
  | block
  | indentless
  deriving DecidableEq

mutual

def node : (fuel : Nat) → Place → Parser Node
  | 0, _ => fail
  | fuel + 1, place => do
    match ← peek with
    | some (.alias name) =>
      advance
      match (← get).anchors.lookup name with
      | some known => return known
      | none => fail
    | _ =>
      let (anchor, tag) ← properties
      checkNew anchor
      setAnchor anchor .cycle
      let result ← content fuel place anchor.isSome tag
      setAnchor anchor result
      return result

def content : (fuel : Nat) → Place → (anchored : Bool) → (tag : Option String) → Parser Node
  | 0, _, _, _ => fail
  | fuel + 1, place, anchored, tag => do
    match ← peek, place with
    | some .entry, .indentless => return .sequence (collectionTag tag) (← indentlessItems fuel)
    | some (.scalar text plain), _ =>
      advance
      return scalarNode tag plain text
    | some .flowSequenceStart, _ =>
      advance
      return .sequence (collectionTag tag) (← flowItems fuel true)
    | some .flowMappingStart, _ =>
      advance
      return .mapping (collectionTag tag) (← flowEntries fuel true)
    | some .sequenceStart, .block | some .sequenceStart, .indentless =>
      advance
      return .sequence (collectionTag tag) (← blockItems fuel)
    | some .mappingStart, .block | some .mappingStart, .indentless =>
      advance
      return .mapping (collectionTag tag) (← blockEntries fuel)
    | _, _ =>
      if anchored || tag.isSome then return scalarNode tag true "" else fail

def nodeUnless : (fuel : Nat) → Place → List Token → Parser Node
  | 0, _, _ => fail
  | fuel + 1, place, ends => do if ← isNext ends then return empty else node fuel place

def blockItems : (fuel : Nat) → Parser (List Node)
  | 0 => fail
  | fuel + 1 => do
    if ← accept .entry then
      let item ← nodeUnless fuel .block [.entry, .blockEnd]
      return item :: (← blockItems fuel)
    else if ← accept .blockEnd then return []
    else fail

def indentlessItems : (fuel : Nat) → Parser (List Node)
  | 0 => fail
  | fuel + 1 => do
    if ← accept .entry then
      let item ← nodeUnless fuel .block [.entry, .key, .value, .blockEnd]
      return item :: (← indentlessItems fuel)
    else return []

/-- What stands behind the sign of a key or of a value may be left out. -/
def blockEntries : (fuel : Nat) → Parser (List (Node × Node))
  | 0 => fail
  | fuel + 1 => do
    if ← accept .blockEnd then return []
    else if ← accept .key then
      let key ← nodeUnless fuel .indentless [.key, .value, .blockEnd]
      let value ← if ← accept .value then nodeUnless fuel .indentless [.key, .value, .blockEnd]
        else pure empty
      return (key, value) :: (← blockEntries fuel)
    else fail

/-- A key inside of a flow sequence is a mapping of one entry. -/
def flowItems : (fuel : Nat) → (first : Bool) → Parser (List Node)
  | 0, _ => fail
  | fuel + 1, first => do
    if ← accept .flowSequenceEnd then return []
    else
      let separated ← if first then pure true else accept .flowEntry
      if !separated then fail
      else if ← accept .key then
        let key ← nodeUnless fuel .flow [.value, .flowEntry, .flowSequenceEnd]
        let value ← if ← accept .value then nodeUnless fuel .flow [.flowEntry, .flowSequenceEnd]
          else pure empty
        return .mapping none [(key, value)] :: (← flowItems fuel false)
      else if ← accept .flowSequenceEnd then return []
      else
        let item ← node fuel .flow
        return item :: (← flowItems fuel false)

def flowEntries : (fuel : Nat) → (first : Bool) → Parser (List (Node × Node))
  | 0, _ => fail
  | fuel + 1, first => do
    if ← accept .flowMappingEnd then return []
    else
      let separated ← if first then pure true else accept .flowEntry
      if !separated then fail
      else if ← accept .key then
        let key ← nodeUnless fuel .flow [.value, .flowEntry, .flowMappingEnd]
        let value ← if ← accept .value then nodeUnless fuel .flow [.flowEntry, .flowMappingEnd]
          else pure empty
        return (key, value) :: (← flowEntries fuel false)
      else if ← accept .flowMappingEnd then return []
      else
        let key ← node fuel .flow
        return (key, empty) :: (← flowEntries fuel false)

end

def defaultHandles : List (String × String) := [("!", "!"), ("!!", "tag:yaml.org,2002:")]

/-- The handles that the directives in front of a document set; a version has to be the first one
of its kind and of YAML 1. -/
def directives : (fuel : Nat) → (versioned : Bool) → List (String × String) →
    Parser (List (String × String))
  | 0, _, handles => return handles
  | fuel + 1, versioned, handles => do
    match ← peek with
    | some (.directive d) =>
      advance
      match d with
      | .version major =>
        if versioned || major != 1 then fail else directives fuel true handles
      | .tag handle start =>
        if (handles.lookup handle).isSome then fail
        else directives fuel versioned (handles ++ [(handle, start)])
      | .unknown => directives fuel versioned handles
    | _ => return handles

def dropEnds : (fuel : Nat) → Parser Unit
  | 0 => return
  | fuel + 1 => do if ← accept .documentEnd then dropEnds fuel else return

def startsDocument : Option Token → Bool
  | some (.directive _) | some .documentStart => true
  | _ => false

def bound (tokens : List Token) : Nat := 4 * tokens.length + 4

/-- The only document of a stream; an empty stream has none. -/
def document : Parser (Option Node) := do
  let tokens := (← get).tokens
  let fuel := bound tokens
  if tokens.isEmpty then return none
  else
    let root ←
      if startsDocument tokens.head? then do
        let own ← directives tokens.length false []
        modify ({ · with handles := own ++ defaultHandles })
        if ← accept .documentStart then
          let next ← peek
          if next.isNone || next == some .documentEnd || startsDocument next then pure empty
          else node fuel .block
        else fail
      else node fuel .block
    dropEnds tokens.length
    if (← peek).isNone then return some root else fail

end Parsing

def read? (text : String) : Reading (Option Node) := do
  let tokens ← Lexer.tokensOf text
  let (root, _) ← Parsing.document.run ⟨tokens, Parsing.defaultHandles, []⟩
  return root

end ApiSchema.Yaml
