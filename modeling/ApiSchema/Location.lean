/-!
Positions in source text. A position is counted in lines and columns, both from one.
-/

namespace ApiSchema

structure Position where
  line : Nat
  column : Nat
  deriving DecidableEq, Repr, Inhabited

namespace Position

def start : Position := ⟨1, 1⟩

def step (p : Position) (c : Char) : Position :=
  if c = '\n' then ⟨p.line + 1, 1⟩ else ⟨p.line, p.column + 1⟩

def after (p : Position) (text : List Char) : Position := text.foldl step p

theorem after_cons (p : Position) (c : Char) (text : List Char) :
    p.after (c :: text) = (p.step c).after text := rfl

theorem after_append (p : Position) (first second : List Char) :
    p.after (first ++ second) = (p.after first).after second := by
  simp [after, List.foldl_append]

end Position

/-- A position in a named file. Line zero stands for a declaration that was not written in a file. -/
structure Location where
  file : String := "-"
  position : Position := ⟨0, 0⟩
  deriving DecidableEq, Repr, Inhabited

def Location.text (l : Location) : String :=
  s!"{l.file}:{l.position.line}:{l.position.column}"

end ApiSchema
