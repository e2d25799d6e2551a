import ApiSchema.Location
import ApiSchema.Primitive
import ApiSchema.Text.Quoted

/-!
Tokens of the description language: what was read and where it starts.
-/

namespace ApiSchema

inductive Keyword where
  | error | enum | type | importing | fn | get | function | trueWord | falseWord
  deriving DecidableEq, Repr

namespace Keyword

def all : List Keyword :=
  [.error, .enum, .type, .importing, .fn, .get, .function, .trueWord, .falseWord]

def text : Keyword → String
  | .error => "error"
  | .enum => "enum"
  | .type => "type"
  | .importing => "import"
  | .fn => "fn"
  | .get => "get"
  | .function => "function"
  | .trueWord => "true"
  | .falseWord => "false"

def ofText? (word : String) : Option Keyword := all.find? (·.text == word)

end Keyword

inductive Mark where
  | leftBrace | rightBrace | leftParen | rightParen | question | colon | equals | exclamation
  | comma | array | spread
  deriving DecidableEq, Repr

namespace Mark

def text : Mark → String
  | .leftBrace => "\x7b"
  | .rightBrace => "\x7d"
  | .leftParen => "("
  | .rightParen => ")"
  | .question => "?"
  | .colon => ":"
  | .equals => "="
  | .exclamation => "!"
  | .comma => ","
  | .array => "[]"
  | .spread => "..."

def ofChar? (c : Char) : Option Mark :=
  [leftBrace, rightBrace, leftParen, rightParen, question, colon, equals, exclamation, comma].find?
    fun m => m.text.toList == [c]

end Mark

/-- What a token says: a string carries its decoded content, an annotation its trimmed text. -/
inductive Lexeme where
  | keyword (word : Keyword)
  | mark (m : Mark)
  | primitive (p : Primitive)
  | identifier (name : String)
  | string (content : String)
  | note (text : String)
  deriving DecidableEq, Repr

namespace Lexeme

def text : Lexeme → String
  | .keyword word => word.text
  | .mark m => m.text
  | .primitive p => p.name
  | .identifier name => name
  | .string content => content
  | .note text => text

/-- Identifiers, keywords and primitive names can all stand where a name is expected. -/
def name? : Lexeme → Option String
  | .identifier name => some name
  | .keyword word => some word.text
  | .primitive p => some p.name
  | _ => none

def shown : Lexeme → String
  | .keyword word => Text.quoted word.text
  | .mark m => Text.quoted m.text
  | .primitive p => "primitive " ++ Text.quoted p.name
  | .identifier name => "identifier " ++ Text.quoted name
  | .string content => "string " ++ Text.quoted content
  | .note text => "annotation " ++ Text.quoted text

def ofWord (word : String) : Lexeme :=
  match Keyword.ofText? word, Primitive.ofName? word with
  | some k, _ => .keyword k
  | none, some p => .primitive p
  | none, none => .identifier word

end Lexeme

structure Token where
  lexeme : Lexeme
  location : Location
  deriving DecidableEq, Repr

end ApiSchema
