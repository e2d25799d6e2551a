import ApiSchema.Annotation
import ApiSchema.Reference

/-!
Why a schema is not valid.
-/

namespace ApiSchema

inductive SemanticError where
  | redeclaredType (name : String) (location previous : Location)
  | nameConflict (path : List String) (location : Location) (other : List String)
      (previous : Location)
  | unknownType (name : String) (location : Location)
  | secretReturned (path : List String) (location : Location)
  | unresolvedSpread (e : ResolveError) (location : Location)
  | spreadOfNoStruct (name : String) (location : Location)
  | cyclicSpread (name : String) (location : Location)
  | emptyEnum (name : String) (location : Location)
  | emptyStruct (name : String) (location : Location)
  | recursiveAlias (name : String) (location : Location)
  | endlessType (name : String) (location : Location)
  | repeatedValues (name : String) (location : Location)
  | misplaced (keyword : String) (location : Location)
  | statusCodeRange (code : Int) (location : Location)
  | unknownError (name : String) (location : Location)
  | restRepeats (location : Location)
  | restUnknownArgument (name : String) (location : Location)
  | restOptionalPath (name : String) (location : Location)
  | restUnsuitable (name type : String) (location : Location)
  | restMissing (name : String) (location : Location)
  | restSecret (location : Location)
  | restReturnsNothing (location : Location)
  deriving DecidableEq, Repr

def SemanticError.message : SemanticError → String
  | .redeclaredType name location previous =>
    s!"Type '{name}' at {location.text} is defined multiple times (also at {previous.text})"
  | .nameConflict path location other previous =>
    "The name of the type '" ++ ".".intercalate path ++ "' at " ++ location.text
      ++ " will conflict with '" ++ ".".intercalate other ++ "' at " ++ previous.text
  | .unknownType name location => s!"Could not find type '{name}' at {location.text}"
  | .secretReturned path location =>
    "Can't return a secret value at " ++ ".".intercalate path ++ " at " ++ location.text
  | .unresolvedSpread e location => s!"{e.message} at {location.text}"
  | .spreadOfNoStruct name location =>
    s!"A spread operator can't refer to something that is not a struct, in '{name}' at {location.text}."
  | .cyclicSpread name location => s!"The spread of '{name}' at {location.text} is cyclic"
  | .emptyEnum name location => s!"Enum '{name}' at {location.text} is empty"
  | .emptyStruct name location => s!"Struct '{name}' at {location.text} is empty"
  | .recursiveAlias name location =>
    s!"Type '{name}' at {location.text} is recursive but is not an struct"
  | .endlessType name location => s!"Type '{name}' at {location.text} is infinitely recursive"
  | .repeatedValues name location => s!"Enum '{name}' at {location.text} has duplicated members"
  | .misplaced keyword location => s!"Cannot have @{keyword} at {location.text}"
  | .statusCodeRange code location => s!"Invalid status code {code} at {location.text}"
  | .unknownError name location => s!"Unknown error type '{name}' at {location.text}"
  | .restRepeats location =>
    s!"Arguments must appear only once for rest annotation at {location.text}"
  | .restUnknownArgument name location => s!"Argument '{name}' not found at {location.text}"
  | .restOptionalPath name location =>
    s!"The path argument '{name}' can't be nullable at {location.text}"
  | .restUnsuitable name type location =>
    s!"Argument '{name}' can't have type '{type}' for rest annotation at {location.text}"
  | .restMissing name location =>
    s!"Argument '{name}' is missing from the rest annotation at {location.text}"
  | .restSecret location =>
    "Argument marked as secret cannot be used in the path or query parts of a GET endpoint at "
      ++ location.text
  | .restReturnsNothing location => s!"A GET rest endpoint must return something at {location.text}"

/-- The analysis ends with a fault of the schema, with a reference that has no type where one is
needed, or not at all because a type is nested in itself. -/
inductive AnalysisFailure where
  | semantic (e : SemanticError)
  | unresolved (e : ResolveError)
  | endless
  deriving DecidableEq, Repr

abbrev Checked := Except AnalysisFailure

def refuse {α : Type} (e : SemanticError) : Checked α := .error (.semantic e)

end ApiSchema
