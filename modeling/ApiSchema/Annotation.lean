import ApiSchema.Location
import ApiSchema.Rest

/-!
Annotations of declarations.
-/

namespace ApiSchema

inductive Annotation where
  | description (text : String)
  | argument (name text : String)
  | throws (error : String)
  | hidden
  | statusCode (code : Int)
  | rest (mapping : RestMapping)
  deriving DecidableEq, Repr

def Annotation.keyword : Annotation → String
  | .description _ => "description"
  | .argument .. => "arg"
  | .throws _ => "throws"
  | .hidden => "hidden"
  | .statusCode _ => "statusCode"
  | .rest _ => "rest"

structure Note where
  content : Annotation
  location : Location
  deriving DecidableEq, Repr

namespace Note

def describe (text : String) (location : Location) : Note := ⟨.description text, location⟩

def descriptions (notes : List Note) : List String :=
  notes.filterMap fun n => match n.content with
    | .description text => some text
    | _ => none

end Note

end ApiSchema
