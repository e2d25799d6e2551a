import ApiSchema.Text.Word
import ApiSchema.Text.Case
import ApiSchema.Token.Lexer
import ApiSchema.Number.Shortest
import ApiSchema.Number.Decimal
import ApiSchema.Value
import ApiSchema.Json.Reader
import ApiSchema.Value.Display
import ApiSchema.Annotation
import ApiSchema.FileTree
import ApiSchema.Tree.Parser
import ApiSchema.Schema.OfTree
import ApiSchema.Analysis
import ApiSchema.Artifact
import ApiSchema.Compatibility
import ApiSchema.Url.Reader
import ApiSchema.Codec
import ApiSchema.Config
import ApiSchema.Build
import ApiSchema.Main
import ApiSchema.Proofs.Running
import ApiSchema.Proofs.Schema.Leading
import ApiSchema.Proofs.Analysis.Spreading
import ApiSchema.Proofs.Analysis.Secrecy
import ApiSchema.Proofs.Schema.Nesting
import ApiSchema.Proofs.Analysis.Binding
import ApiSchema.Proofs.Analysis.Labelling
import ApiSchema.Proofs.Analysis.Naming
import ApiSchema.Proofs.Schema.OfTree
import ApiSchema.Proofs.Analysis.Aliases
import ApiSchema.Proofs.Analysis.Ending
import ApiSchema.Proofs.Analysis.Collection
import ApiSchema.Proofs.Analysis.Form
import ApiSchema.Proofs.Analysis.Idempotence
import ApiSchema.Proofs.Analysis.Trails
import ApiSchema.Proofs.Compatibility.Coinduction
import ApiSchema.Proofs.Base64
import ApiSchema.Proofs.Codec.Taking
import ApiSchema.Proofs.Codec.Literals
import ApiSchema.Proofs.Codec.Sending
import ApiSchema.Proofs.Codec.Widening
import ApiSchema.Proofs.Compatibility.Comparing
import ApiSchema.Proofs.Compatibility.Transmission
import ApiSchema.Proofs.Document.Permutation
import ApiSchema.Proofs.Json.Numerals
import ApiSchema.Proofs.Json.RoundTrip
import ApiSchema.Proofs.Analysis.Paths
import ApiSchema.Proofs.Compatibility.Conveyance
import ApiSchema.Proofs.Document.Describing
import ApiSchema.Proofs.Codec.Canonical
import ApiSchema.Proofs.Codec.Returning
import ApiSchema.Proofs.Codec.Outcome
import ApiSchema.Proofs.Codec.Spelling
import ApiSchema.Proofs.Codec.Ending
import ApiSchema.Proofs.Document.Storing
import ApiSchema.Proofs.Compatibility.Mirror
import ApiSchema.Proofs.Document.Resolving
import ApiSchema.Proofs.Tree.Exactness
import ApiSchema.Proofs.Compatibility.Reflexivity
import ApiSchema.Proofs.Tree.Boundaries
import ApiSchema.Proofs.Build.Containment
import ApiSchema.Proofs.Analysis.Transparency
import ApiSchema.Proofs.Analysis.Folding
import ApiSchema.Proofs.Document.Rebuilding
import ApiSchema.Proofs.Rest.Grammar
import ApiSchema.Proofs.Rest.Binding
import ApiSchema.Proofs.Token.Locating
import ApiSchema.Proofs.Tree.Relocation
import ApiSchema.Proofs.Tree.Annotating
import ApiSchema.Proofs.Build.Prefix
import ApiSchema.Proofs.Schema.Equality
import ApiSchema.Proofs.Analysis.Resolution
import ApiSchema.Proofs.Codec.Suffixes
import ApiSchema.Proofs.Build.Prediction
import ApiSchema.Proofs.Document.Reloading
