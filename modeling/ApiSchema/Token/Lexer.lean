import ApiSchema.Text.Blank
import ApiSchema.Token

/-!
Reading of tokens from source text. A cursor holds what is left to read and its position; reading
the next token moves the cursor also when it fails, so that reading can go on behind the fault.
-/

namespace ApiSchema

inductive LexerFault where
  | loneBracket
  | fewDots
  | unterminatedString
  | unexpected (c : Char)
  deriving DecidableEq, Repr

structure LexerError where
  fault : LexerFault
  location : Location
  deriving DecidableEq, Repr

def LexerFault.message : LexerFault → String
  | .loneBracket => "Expected ']' after '['"
  | .fewDots => "Expected '...'"
  | .unterminatedString => "Unterminated string literal"
  | .unexpected c => "Unexpected character " ++ Text.quoted c.toString

def LexerError.message (e : LexerError) : String := e.location.text ++ ": " ++ e.fault.message

structure Cursor where
  rest : List Char
  position : Position
  deriving DecidableEq, Repr

namespace Cursor

def ofSource (source : String) : Cursor := ⟨source.toList, .start⟩

end Cursor

namespace Lexer

def isNameStart (c : Char) : Bool := c.isAlpha || c == '_'

def isNamePart (c : Char) : Bool := c.isAlphanum || c == '_'

inductive Gap where
  | open
  | line
  | block

/-- Skips blanks and comments. A line comment ends before its newline, and the end of the source
ends a block comment. -/
def skipGap : Gap → List Char → Position → Cursor
  | _, [], p => ⟨[], p⟩
  | .open, '/' :: '/' :: rest, p => skipGap .line rest ((p.step '/').step '/')
  | .open, '/' :: '*' :: rest, p => skipGap .block rest ((p.step '/').step '*')
  | .open, c :: rest, p =>
    if c = ' ' ∨ c = '\t' ∨ c = '\r' ∨ c = '\n' then skipGap .open rest (p.step c)
    else ⟨c :: rest, p⟩
  | .line, c :: rest, p =>
    if c = '\n' then skipGap .open rest (p.step c) else skipGap .line rest (p.step c)
  | .block, '*' :: '/' :: rest, p => skipGap .open rest ((p.step '*').step '/')
  | .block, c :: rest, p => skipGap .block rest (p.step c)

def readName : List Char → Position → List Char × Cursor
  | [], p => ([], ⟨[], p⟩)
  | c :: rest, p =>
    if isNamePart c then
      let (name, cursor) := readName rest (p.step c)
      (c :: name, cursor)
    else ([], ⟨c :: rest, p⟩)

def unescape (c : Char) : Char :=
  if c = 'n' then '\n' else if c = 't' then '\t' else c

/-- The content of a string up to its closing quote; nothing when the quote is missing. -/
def readString : List Char → Position → Option (List Char) × Cursor
  | [], p => (none, ⟨[], p⟩)
  | '"' :: rest, p => (some [], ⟨rest, p.step '"'⟩)
  | '\\' :: c :: rest, p =>
    let (content, cursor) := readString rest ((p.step '\\').step c)
    (content.map (unescape c :: ·), cursor)
  | c :: rest, p =>
    let (content, cursor) := readString rest (p.step c)
    (content.map (c :: ·), cursor)

/-- The body of an annotation with one more line joined to it. -/
def joinLine (body : Option (List Char)) (line : List Char) : List Char :=
  match body with
  | none => Text.trim line
  | some body => Text.trim (body ++ ' ' :: Text.trim line)

/-- The body without the mark that continues it, if it ends in one. -/
def continued? (body : List Char) : Option (List Char) :=
  match body.getLast? with
  | some '\\' => some (Text.trim body.dropLast)
  | _ => none

/-- Reads an annotation to the end of its line. A line that ends in a backslash is joined to the
next one. `body` holds the lines before this one, `line` what was read of this one, backwards. -/
def readNote (body : Option (List Char)) (line : List Char) :
    List Char → Position → List Char × Cursor
  | [], p =>
    let whole := joinLine body line.reverse
    ((continued? whole).getD whole, ⟨[], p⟩)
  | c :: rest, p =>
    if c = '\n' then
      let whole := joinLine body line.reverse
      match continued? whole with
      | some start => readNote (some start) [] rest (p.step c)
      | none => (whole, ⟨c :: rest, p⟩)
    else readNote body (c :: line) rest (p.step c)

def readDots : List Char → Position → Bool × Cursor
  | '.' :: '.' :: '.' :: rest, p => (true, ⟨rest, p.after ['.', '.', '.']⟩)
  | '.' :: '.' :: rest, p => (false, ⟨rest, p.after ['.', '.']⟩)
  | '.' :: rest, p => (false, ⟨rest, p.step '.'⟩)
  | rest, p => (false, ⟨rest, p⟩)

/-- Reads the lexeme that starts with `c`. An unexpected character is not read over. -/
def readLexeme (c : Char) (rest : List Char) (p : Position) :
    Except LexerFault Lexeme × Cursor :=
  let next := p.step c
  match Mark.ofChar? c with
  | some m => (.ok (.mark m), ⟨rest, next⟩)
  | none =>
    if c = '[' then
      match rest with
      | ']' :: rest => (.ok (.mark .array), ⟨rest, next.step ']'⟩)
      | rest => (.error .loneBracket, ⟨rest, next⟩)
    else if c = '.' then
      let (complete, cursor) := readDots (c :: rest) p
      (if complete then .ok (.mark .spread) else .error .fewDots, cursor)
    else if c = '@' then
      let (body, cursor) := readNote none [] rest next
      (.ok (.note (String.ofList body)), cursor)
    else if c = '"' then
      let (content, cursor) := readString rest next
      match content with
      | some content => (.ok (.string (String.ofList content)), cursor)
      | none => (.error .unterminatedString, cursor)
    else if isNameStart c then
      let (name, cursor) := readName rest next
      (.ok (Lexeme.ofWord (String.ofList (c :: name))), cursor)
    else (.error (.unexpected c), ⟨c :: rest, p⟩)

def nextToken (file : String) (cursor : Cursor) : Except LexerError (Option Token) × Cursor :=
  let start := skipGap .open cursor.rest cursor.position
  match start.rest with
  | [] => (.ok none, start)
  | c :: rest =>
    let location : Location := ⟨file, start.position⟩
    let (lexeme, cursor) := readLexeme c rest start.position
    match lexeme with
    | .ok lexeme => (.ok (some ⟨lexeme, location⟩), cursor)
    | .error fault => (.error ⟨fault, location⟩, cursor)

end Lexer

/-- What a source holds, in order. Only its last entry can be an error. -/
abbrev TokenStream := List (Except LexerError Token)

namespace TokenStream

/-- Every token takes at least one character, so `fuel` is at most the length of the source. -/
def read (file : String) : (fuel : Nat) → Cursor → TokenStream
  | 0, _ => []
  | fuel + 1, cursor =>
    match Lexer.nextToken file cursor with
    | (.ok none, _) => []
    | (.ok (some token), cursor) => .ok token :: read file fuel cursor
    | (.error e, _) => [.error e]

def ofSource (file source : String) : TokenStream :=
  read file (source.length + 1) (.ofSource source)

def tokens : TokenStream → Except LexerError (List Token)
  | [] => .ok []
  | .error e :: _ => .error e
  | .ok token :: rest => (tokens rest).map (token :: ·)

end TokenStream

end ApiSchema
