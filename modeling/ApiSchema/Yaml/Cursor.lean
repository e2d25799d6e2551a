import ApiSchema.Config

/-!
A place in the text of a YAML stream: what is left, with its index, line and column, all from zero.

The modules on YAML are a reader for the program as it runs. Nothing else depends on them: configurations
are read by whatever reader is given. Texts hold no halves of characters, and neither do scalars here.
-/

namespace ApiSchema.Yaml

abbrev Reading := Except YamlError

def malformed {α : Type} : Reading α := .error .malformed

structure Cursor where
  rest : List Char
  index : Nat
  line : Nat
  column : Nat

def isBreak (c : Char) : Bool :=
  c == '\n' || c == '\x0d' || c == '\u0085' || c == '\u2028' || c == '\u2029'

def isGap (c : Char) : Bool := c == ' ' || c == '\t'

namespace Cursor

def ofText (text : List Char) : Cursor := ⟨text, 0, 0, 0⟩

def peek (c : Cursor) : Option Char := c.rest.head?

def peekAt (c : Cursor) (n : Nat) : Option Char := (c.rest.drop n).head?

/-- A carriage return ends a line only where no newline follows it; a byte order mark has no
width. -/
def next (c : Cursor) : Cursor :=
  match c.rest with
  | [] => c
  | char :: rest =>
    if isBreak char && !(char == '\x0d' && rest.head? == some '\n') then
      ⟨rest, c.index + 1, c.line + 1, 0⟩
    else if char = '\ufeff' then { c with rest, index := c.index + 1 }
    else { c with rest, index := c.index + 1, column := c.column + 1 }

def skip (c : Cursor) : Nat → Cursor
  | 0 => c
  | n + 1 => c.next.skip n

def takeWhile (c : Cursor) (test : Char → Bool) : List Char × Cursor :=
  let taken := c.rest.takeWhile test
  (taken, c.skip taken.length)

def dropWhile (c : Cursor) (test : Char → Bool) : Cursor := (c.takeWhile test).2

def dropSpaces (c : Cursor) : Cursor := c.dropWhile (· == ' ')

/-- A line break, which is one newline however it is written, except for the two separators. -/
def takeBreak? (c : Cursor) : Option (Char × Cursor) :=
  match c.rest with
  | '\x0d' :: '\n' :: _ => some ('\n', c.skip 2)
  | char :: _ =>
    if char = '\u2028' ∨ char = '\u2029' then some (char, c.next)
    else if isBreak char then some ('\n', c.next)
    else none
  | [] => none

/-- A comment up to the end of its line. -/
def dropComment (c : Cursor) : Cursor :=
  if c.peek = some '#' then c.dropWhile (!isBreak ·) else c

/-- The rest of a line in which only blanks and a comment may stand. -/
def dropLine (c : Cursor) : Reading Cursor :=
  let c := c.dropSpaces.dropComment
  match c.peek with
  | none => return c
  | some _ =>
    match c.takeBreak? with
    | some (_, c) => return c
    | none => malformed

end Cursor

def isGapOrEnd : Option Char → Bool
  | none => true
  | some c => isGap c || isBreak c

def isSpaceOrEnd : Option Char → Bool
  | none => true
  | some c => c == ' ' || isBreak c

/-- Three dashes or three dots on their own separate documents. -/
def isSeparator (c : Cursor) : Bool :=
  let mark := c.rest.take 3
  (mark == ['-', '-', '-'] || mark == ['.', '.', '.']) && isGapOrEnd (c.peekAt 3)

end ApiSchema.Yaml
