import ApiSchema.Artifact
import ApiSchema.Tree.Error

/-!
Why files cannot be compiled.
-/

namespace ApiSchema

/-- What is told of a file that yields no schema, or of two files that would yield one artifact. -/
inductive BuildError where
  | unreadableSource (file : String) (e : FileError)
  | lexer (file : String) (e : LexerError)
  | grammar (file : String) (e : ParseError)
  | semantic (file : String) (e : SemanticError)
  | unreadableArtifact (file : String) (e : FileError)
  | malformedArtifact (file : String)
  | invalidArtifact (file : String) (e : SemanticError)
  | sharedArtifact (first second : FilePath)
  deriving DecidableEq, Repr

/-- Errors that are no build errors: a text that is none, a number with too many digits, an alias
without an end, an analysis without an end, or an artifact that cannot be put down. -/
inductive BuildFailure where
  | error (e : BuildError)
  | notText
  | numberTooLong
  | unresolved (e : ResolveError)
  | endless
  | unwritten (e : Artifact.WriteError)
  | inaccessible (e : AccessError)
  deriving DecidableEq, Repr

namespace Build

def artifactName (source : FilePath) : String := source.stem ++ Artifact.ending

end Build

def BuildError.message : BuildError → String
  | .unreadableSource file e => s!"Cannot read source file '{file}': {e.message}"
  | .lexer file e => s!"Parse error in '{file}': {e.message}"
  | .grammar file e => s!"Parse error in '{file}': {e.message}"
  | .semantic file e => s!"Semantic error in '{file}': {e.message}"
  | .unreadableArtifact file e => s!"Cannot read artifact '{file}': {e.message}"
  | .malformedArtifact file => s!"Invalid artifact '{file}': "
  | .invalidArtifact file e => s!"Invalid artifact '{file}': {e.message}"
  | .sharedArtifact first second =>
    let artifact := Build.artifactName second
    s!"Source files '{first.text}' and '{second.text}' would both produce '{artifact}'"

end ApiSchema
