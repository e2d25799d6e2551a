import ApiSchema.Number.Digits
import ApiSchema.Tree
import ApiSchema.Tree.Error

/-!
Parsing of token streams into declarations. One token is read ahead, so that a fault in the text
shows as soon as the token before it is taken. An import puts the tokens of its file in front of
the remaining ones, once for each file.
-/

namespace ApiSchema

structure ParseState where
  current : Option Token
  rest : TokenStream
  /-- Where the last token was taken; an unexpected end is reported there. -/
  last : Location
  /-- Annotations that wait for the declaration they belong to. -/
  pending : List Note
  warnings : List String
  imported : List FilePath

abbrev Parser := StateT ParseState (Except ParseFailure)

namespace Parser

def fail {α : Type} (fault : ParseFault) (location : Location) : Parser α :=
  throw (.grammar ⟨fault, location⟩)

def readAhead : Parser Unit := do
  let s ← get
  match s.rest with
  | [] => set { s with current := none }
  | .ok token :: rest => set { s with current := some token, rest }
  | .error e :: _ => throw (.lexer e)

def current : Parser Token := do
  let s ← get
  match s.current with
  | some token => return token
  | none => fail .endOfFile s.last

def advance : Parser Token := do
  let token ← current
  modify ({ · with last := token.location })
  readAhead
  return token

def sees (lexeme : Lexeme) : Parser Bool := do
  return (← get).current.any (·.lexeme == lexeme)

def seesMark (m : Mark) : Parser Bool := sees (.mark m)

def expectMark (m : Mark) : Parser Token := do
  let token ← current
  if token.lexeme = .mark m then advance else fail (.expectedMark m token.lexeme) token.location

def acceptMark (m : Mark) : Parser Bool := do
  if ← seesMark m then
    let _ ← advance
    return true
  else return false

/-- Takes a name; keywords and primitive names can be names too. -/
def expectName : Parser (String × Location) := do
  let token ← current
  match token.lexeme.name? with
  | some name =>
    let _ ← advance
    return (name, token.location)
  | none => fail (.expectedName token.lexeme) token.location

def startsWithCapital (name : String) : Bool := (name.toList.head?.map Char.isUpper).getD false

def headAndBody (cs : List Char) : List Char × List Char :=
  (cs.takeWhile (· != ' '), Text.trim ((cs.dropWhile (· != ' ')).drop 1))

def annotationOf (text : String) : Except ParseFault (Option Annotation) :=
  let (head, body) := headAndBody text.toList
  let bodyText := String.ofList body
  match String.ofList head with
  | "description" => .ok (some (.description bodyText))
  | "arg" =>
    let (name, description) := headAndBody body
    if name.isEmpty then .error .unnamedArgument
    else .ok (some (.argument (String.ofList name) (String.ofList description)))
  | "throws" => .ok (some (.throws bodyText))
  | "rest" =>
    match RestMapping.parse bodyText with
    | .ok mapping => .ok (some (.rest mapping))
    | .error e => .error (.invalidRest e)
  | "hidden" => if body.isEmpty then .ok (some .hidden) else .error .hiddenWithText
  | "statusCode" =>
    if body.isEmpty || !body.all isDigit then .error (.invalidStatusCode bodyText)
    else if exceedsDigitLimit body.length then .ok none
    else .ok (some (.statusCode (digitsValue body)))
  | keyword => .error (.unknownNote keyword)

def noteOf (text : String) (location : Location) : Parser Note :=
  match annotationOf text with
  | .ok (some content) => return ⟨content, location⟩
  | .ok none => throw .numberTooLong
  | .error fault => fail fault location

def acceptAnnotations : (fuel : Nat) → Parser Unit
  | 0 => return
  | fuel + 1 => do
    match (← get).current with
    | some ⟨.note text, location⟩ =>
      let _ ← advance
      let note ← noteOf text location
      modify fun s => { s with pending := s.pending ++ [note] }
      acceptAnnotations fuel
    | _ => return

def collectAnnotations : Parser Unit := do
  acceptAnnotations ((← get).rest.length + 1)

def takeAnnotations : Parser (List Note) := do
  let s ← get
  set { s with pending := [] }
  return s.pending

def checkNoAnnotations : Parser Unit := do
  match (← get).pending with
  | [] => return
  | note :: _ => fail .misplacedNote note.location

def requireTypeName (name : String) (location : Location) : Parser Unit := do
  unless startsWithCapital name do fail (.notATypeName name) location

def parseSpread : Parser MemberTree := do
  checkNoAnnotations
  let dots ← expectMark .spread
  let (name, nameLocation) ← expectName
  requireTypeName name nameLocation
  return .spread name nameLocation dots.location

def parseSuffixes : (fuel : Nat) → TypeTree → Parser TypeTree
  | 0, type => return type
  | fuel + 1, type => do
    match (← get).current with
    | some ⟨.mark .array, location⟩ =>
      let _ ← advance
      parseSuffixes fuel (.array type location)
    | some ⟨.mark .question, location⟩ =>
      let _ ← advance
      parseSuffixes fuel (.optional type location)
    | _ => return type

/-- Reads the marks behind a field; the only known one makes it secret. -/
def parseFieldMarks : (fuel : Nat) → Bool → Parser Bool
  | 0, secret => return secret
  | fuel + 1, secret => do
    if ← acceptMark .exclamation then
      let (name, location) ← expectName
      if name = "secret" then parseFieldMarks fuel true
      else fail (.unknownFieldMark name) location
    else return secret

mutual

/-- Parses a type; every second step takes a token, which bounds `fuel`. -/
def parseType : (fuel : Nat) → Parser TypeTree
  | 0 => do fail .endOfFile (← get).last
  | fuel + 1 => do
    checkNoAnnotations
    let token ← current
    let base ← match token.lexeme with
      | .mark .leftBrace => parseStruct fuel
      | .keyword .enum => do
        let _ ← advance
        let _ ← expectMark .leftBrace
        let values ← parseValues fuel
        pure (TypeTree.enum "" values token.location)
      | .primitive kind => do
        let _ ← advance
        pure (TypeTree.primitive kind token.location)
      | .mark .leftParen => do
        let _ ← advance
        let type ← parseType fuel
        let _ ← expectMark .rightParen
        pure type
      | lexeme =>
        match lexeme.name? with
        | none => fail (.expectedType lexeme) token.location
        | some name => do
          let _ ← advance
          requireTypeName name token.location
          pure (TypeTree.reference name token.location)
    parseSuffixes fuel base

def parseStruct : (fuel : Nat) → Parser TypeTree
  | 0 => do fail .endOfFile (← get).last
  | fuel + 1 => do
    let brace ← expectMark .leftBrace
    let members ← parseMembers fuel []
    return .struct "" members [] brace.location

/-- Parses the members of a struct up to its closing brace; `seen` are the field names so far. -/
def parseMembers : (fuel : Nat) → (seen : List String) → Parser (List MemberTree)
  | 0, _ => do fail .endOfFile (← get).last
  | fuel + 1, seen => do
    collectAnnotations
    if ← seesMark .rightBrace then
      checkNoAnnotations
      let _ ← advance
      return []
    else if ← seesMark .spread then
      let member ← parseSpread
      let _ ← acceptMark .comma
      let others ← parseMembers fuel seen
      return member :: others
    else
      let field ← parseField fuel
      if seen.contains field.name then fail (.repeatedField field.name) field.location
      let _ ← acceptMark .comma
      let others ← parseMembers fuel (field.name :: seen)
      return .field field :: others

def parseField : (fuel : Nat) → Parser FieldTree
  | 0 => do fail .endOfFile (← get).last
  | fuel + 1 => do
    let (name, location) ← expectName
    let _ ← expectMark .colon
    let notes ← takeAnnotations
    let type ← parseType fuel
    let secret ← parseFieldMarks fuel false
    return .mk name type secret notes location

def parseValues : (fuel : Nat) → Parser (List ValueTree)
  | 0 => do fail .endOfFile (← get).last
  | fuel + 1 => do
    collectAnnotations
    if ← seesMark .rightBrace then
      checkNoAnnotations
      let _ ← advance
      return []
    else
      let (text, location) ← match (← get).current with
        | some ⟨.string text, location⟩ => do
          let _ ← advance
          pure (text, location)
        | _ => expectName
      let notes ← takeAnnotations
      let data ← if ← seesMark .leftBrace then some <$> parseStruct fuel else pure none
      let _ ← acceptMark .comma
      let others ← parseValues fuel
      return .mk text data notes location :: others

/-- Parses arguments up to the closing parenthesis, which is left. -/
def parseArguments : (fuel : Nat) → (seen : List String) → Parser (List MemberTree)
  | 0, _ => do fail .endOfFile (← get).last
  | fuel + 1, seen => do
    if ← seesMark .rightParen then return []
    else if ← seesMark .spread then
      let member ← parseSpread
      if ← acceptMark .comma then
        let others ← parseArguments fuel seen
        return member :: others
      else return [member]
    else
      let field ← parseField fuel
      if seen.contains field.name then fail (.repeatedArgument field.name) field.location
      if ← acceptMark .comma then
        let others ← parseArguments fuel (field.name :: seen)
        return .field field :: others
      else return [.field field]

end

/-- Enough for every type that the remaining tokens can hold. -/
def remainingFuel : Parser Nat := do
  return 2 * (← get).rest.length + 8

def parseTypeHere : Parser TypeTree := do parseType (← remainingFuel)

def parseTypeDeclaration : Parser TypeDeclaration := do
  let word ← advance
  let (name, nameLocation) ← expectName
  unless startsWithCapital name do fail (.smallTypeName name) nameLocation
  let _ ← acceptMark .equals
  let notes ← takeAnnotations
  let type ← parseTypeHere
  return ⟨name, type, notes, word.location⟩

/-- The token can be the first one of an error's data when no colon announces it. -/
def startsErrorData : Lexeme → Bool
  | .mark .leftBrace | .mark .leftParen | .keyword .enum | .primitive _ | .identifier _ => true
  | _ => false

def parseErrorDeclaration : Parser ErrorDeclaration := do
  let word ← advance
  let (name, nameLocation) ← expectName
  unless startsWithCapital name do fail (.smallErrorName name) nameLocation
  let notes ← takeAnnotations
  let data ←
    if ← acceptMark .colon then parseTypeHere
    else if (← get).current.any fun token => startsErrorData token.lexeme then parseTypeHere
    else pure (.primitive .void nameLocation)
  return ⟨name, data, notes, word.location⟩

def describeArgument (name : String) (note : Note) : List MemberTree → Option (List MemberTree)
  | [] => none
  | .field f :: rest =>
    if f.name = name then some (.field (f.addNote note) :: rest)
    else (describeArgument name note rest).map (.field f :: ·)
  | member :: rest => (describeArgument name note rest).map (member :: ·)

/-- Moves descriptions of arguments onto the arguments; the other notes stay. -/
def distributeNotes : List Note → List MemberTree → Parser (List Note × List MemberTree)
  | [], members => return ([], members)
  | note :: rest, members =>
    match note.content with
    | .argument name text =>
      match describeArgument name (Note.describe text note.location) members with
      | some members => distributeNotes rest members
      | none => fail (.unknownArgument name) note.location
    | _ => do
      let (notes, members) ← distributeNotes rest members
      return (note :: notes, members)

def deprecationWarning (word : String) (location : Location) : String :=
  "Keyword '" ++ word ++ "' is deprecated at " ++ location.text ++ ". Use 'fn' instead."

def parseFunctionDeclaration : Parser FunctionDeclaration := do
  let notes ← takeAnnotations
  let word ← advance
  if word.lexeme ≠ .keyword .fn then
    let warning := deprecationWarning word.lexeme.text word.location
    modify fun s => { s with warnings := s.warnings ++ [warning] }
  let (name, _) ← expectName
  let _ ← expectMark .leftParen
  let members ← parseArguments (← remainingFuel) []
  let closing ← expectMark .rightParen
  let (notes, members) ← distributeNotes notes members
  let returns ←
    if ← acceptMark .colon then parseTypeHere
    else pure (.primitive .void closing.location)
  return {
    name, members, returns, notes
    isGetter := word.lexeme == .keyword .get
    location := word.location }

/-- The file that an import names, seen from the importing file. -/
def importPath (tree : FileTree) (importing path : String) : FilePath :=
  tree.resolve (((FilePath.ofText importing).parent).join (FilePath.ofText (path ++ ".sdkgen")))

def parseImport (tree : FileTree) : Parser Unit := do
  checkNoAnnotations
  let _ ← advance
  let token ← current
  match token.lexeme with
  | .string path =>
    let file := importPath tree token.location.file path
    modify ({ · with last := token.location })
    if (← get).imported.contains file then readAhead
    else
      match tree.readText file with
      | .ok text =>
        modify fun s => { s with
          imported := file :: s.imported
          rest := TokenStream.ofSource file.text text ++ s.rest }
        readAhead
      | .error (.system e) => fail (.unreadableImport path e) token.location
      | .error _ => throw .notText
  | lexeme => fail (.expectedString lexeme) token.location

/-- Parses declarations up to the end. Every step takes a token, and each file is imported once. -/
def parseDeclarations (tree : FileTree) : (fuel : Nat) → SchemaTree → Parser SchemaTree
  | 0, schema => return schema
  | fuel + 1, schema => do
    if (← get).current.isNone then return schema
    collectAnnotations
    match (← get).current with
    | none =>
      checkNoAnnotations
      return schema
    | some token =>
      match token.lexeme with
      | .keyword .type =>
        let declaration ← parseTypeDeclaration
        parseDeclarations tree fuel { schema with types := schema.types ++ [declaration] }
      | .keyword .error =>
        let declaration ← parseErrorDeclaration
        parseDeclarations tree fuel { schema with errors := schema.errors ++ [declaration] }
      | .keyword .fn | .keyword .get | .keyword .function =>
        let declaration ← parseFunctionDeclaration
        parseDeclarations tree fuel { schema with functions := schema.functions ++ [declaration] }
      | .keyword .importing =>
        parseImport tree
        parseDeclarations tree fuel schema
      | lexeme => fail (.notAtTopLevel lexeme) token.location

end Parser

namespace FileTree

def totalSize (t : FileTree) : Nat :=
  total (t.entries.map fun (_, entry) => match entry with
    | .file content => content.length
    | .directory => 0)

end FileTree

namespace SchemaTree

/-- Parses a source. Its file name locates its declarations and, unless it is `-`, its imports. -/
def parse (tree : FileTree) (file source : String) : Except ParseFailure SchemaTree := do
  if file != "-" && FileTree.hasNull (FilePath.ofText file) then throw .notText
  let imported := if file = "-" then [] else [tree.resolve (FilePath.ofText file)]
  let start : ParseState := {
    current := none
    rest := TokenStream.ofSource file source
    last := ⟨file, .start⟩
    pending := []
    warnings := []
    imported }
  let run : Parser SchemaTree := do
    Parser.readAhead
    let schema ← Parser.parseDeclarations tree (source.length + tree.totalSize + 1) {}
    return { schema with warnings := (← get).warnings }
  run.run' start

end SchemaTree

end ApiSchema
