import ApiSchema.FileTree
import ApiSchema.Rest
import ApiSchema.Token.Lexer

/-!
Why a source cannot be read as declarations.
-/

namespace ApiSchema

inductive ParseFault where
  | endOfFile
  | expectedMark (m : Mark) (got : Lexeme)
  | expectedName (got : Lexeme)
  | expectedType (got : Lexeme)
  | expectedString (got : Lexeme)
  | notAtTopLevel (got : Lexeme)
  | smallTypeName (name : String)
  | smallErrorName (name : String)
  | notATypeName (name : String)
  | misplacedNote
  | repeatedArgument (name : String)
  | repeatedField (name : String)
  | unknownArgument (name : String)
  | unknownFieldMark (name : String)
  | unnamedArgument
  | invalidRest (e : RestError)
  | hiddenWithText
  | invalidStatusCode (text : String)
  | unknownNote (keyword : String)
  | unreadableImport (path : String) (e : FileError)
  deriving DecidableEq, Repr

def ParseFault.message : ParseFault → String
  | .endOfFile => "Unexpected end of file"
  | .expectedMark m got => "Expected " ++ Text.quoted m.text ++ ", got " ++ got.shown
  | .expectedName got => "Expected identifier, got " ++ got.shown
  | .expectedType got => "Expected a type, got " ++ got.shown
  | .expectedString got => "Expected a string, got " ++ got.shown
  | .notAtTopLevel got => "Unexpected " ++ got.shown ++ " at top level"
  | .smallTypeName name =>
    "The custom type name must start with an uppercase letter, but found '" ++ name ++ "'"
  | .smallErrorName name =>
    "Error name must start with an uppercase letter, but found '" ++ name ++ "'"
  | .notATypeName name => "Expected a type but found '" ++ name ++ "'"
  | .misplacedNote => "Cannot have annotations here"
  | .repeatedArgument name => "Cannot redeclare argument '" ++ name ++ "'"
  | .repeatedField name => "Cannot redeclare field '" ++ name ++ "'"
  | .unknownArgument name => "Argument '" ++ name ++ "' not found"
  | .unknownFieldMark name => "Unknown field mark !" ++ name
  | .unnamedArgument => "@arg requires an argument name"
  | .invalidRest e => e.message
  | .hiddenWithText => "@hidden annotation doesn't take any argument"
  | .invalidStatusCode text => "@statusCode expects an integer, got '" ++ text ++ "'"
  | .unknownNote keyword => "Unknown annotation '" ++ keyword ++ "'"
  | .unreadableImport path e => "Cannot import '" ++ path ++ "': " ++ e.message

structure ParseError where
  fault : ParseFault
  location : Location
  deriving DecidableEq, Repr

def ParseError.message (e : ParseError) : String := e.location.text ++ ": " ++ e.fault.message

/-- Reading fails in a source text, or in what belongs to it: a number has too many digits, or the
name or the content of a file is no text. -/
inductive ParseFailure where
  | lexer (e : LexerError)
  | grammar (e : ParseError)
  | numberTooLong
  | notText
  deriving DecidableEq, Repr

end ApiSchema
