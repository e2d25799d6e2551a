import ApiSchema.Json.Reader
import ApiSchema.Yaml.Cursor

/-!
Scalars in a YAML stream: plain, between quotes, and in blocks. Line breaks inside of them are
folded into spaces, except in literal blocks.
-/

namespace ApiSchema.Yaml

/-- Line breaks and the blanks at the start of each line, up to the first other character. -/
def foldBreaks : (fuel : Nat) → Cursor → Reading (List Char × Cursor)
  | 0, c => return ([], c)
  | fuel + 1, c =>
    if isSeparator c then malformed
    else
      match (c.dropWhile isGap).takeBreak? with
      | some (char, c) => do
        let (more, c) ← foldBreaks fuel c
        return (char :: more, c)
      | none => return ([], c.dropWhile isGap)

def folded (first : Char) (more : List Char) : List Char :=
  if first ≠ '\n' then first :: more else if more.isEmpty then [' '] else more

/-- Blanks between quotes: kept within a line, and folded with the line break they belong to. -/
def quotedGap (c : Cursor) : Reading (List Char × Cursor) :=
  let (gap, c) := c.takeWhile isGap
  match c.peek with
  | none => malformed
  | some _ =>
    match c.takeBreak? with
    | none => return (gap, c)
    | some (first, c) => do
      let (more, c) ← foldBreaks c.rest.length c
      return (folded first more, c)

def simpleEscapes : List (Char × Char) :=
  [('0', '\x00'), ('a', '\x07'), ('b', '\x08'), ('t', '\t'), ('\t', '\t'), ('n', '\n'),
    ('v', '\x0b'), ('f', '\x0c'), ('r', '\x0d'), ('e', '\x1b'), (' ', ' '), ('"', '"'),
    ('\\', '\\'), ('/', '/'), ('N', '\u0085'), ('_', '\u00a0'), ('L', '\u2028'), ('P', '\u2029')]

def codeLengths : List (Char × Nat) := [('x', 2), ('u', 4), ('U', 8)]

/-- The second half of a character that is escaped in two halves. -/
def lowHalf? (c : Cursor) : Option Nat :=
  match c.rest.take 6 with
  | ['\\', 'u', d, e, f, g] => (Json.hexNumber? [d, e, f, g]).filter Json.isLowUnit
  | _ => none

/-- The character of a code point. Half a character is none by itself. -/
def readCode (code : Nat) (c : Cursor) : Reading (Char × Cursor) :=
  match lowHalf? c with
  | some low =>
    if Json.isHighUnit code then
      return (Char.ofNat (0x10000 + (code - 0xd800) * 0x400 + (low - 0xdc00)), c.skip 6)
    else whole
  | none => whole
where
  whole : Reading (Char × Cursor) :=
    if code.isValidChar then return (Char.ofNat code, c) else .error .valueless

def quotedEscape (c : Cursor) : Reading (List Char × Cursor) :=
  match c.peek with
  | none => malformed
  | some mark =>
    match simpleEscapes.lookup mark, codeLengths.lookup mark with
    | some char, _ => return ([char], c.next)
    | none, some length =>
      let digits := c.next.rest.take length
      if digits.length < length then malformed
      else
        match Json.hexNumber? digits with
        | some code => do
          let (char, c) ← readCode code (c.next.skip length)
          return ([char], c)
        | none => malformed
    | none, none =>
      match c.takeBreak? with
      | some (_, c) => foldBreaks c.rest.length c
      | none => malformed

/-- The text between quotes, and the place behind the closing one. -/
def quotedText (double : Bool) : (fuel : Nat) → Cursor → Reading (List Char × Cursor)
  | 0, _ => malformed
  | fuel + 1, c => do
    let prepend (piece : List Char) (c : Cursor) := do
      let (more, c) ← quotedText double fuel c
      return (piece ++ more, c)
    match c.rest with
    | [] => malformed
    | '"' :: _ => if double then return ([], c.next) else prepend ['"'] c.next
    | '\'' :: after =>
      if double then prepend ['\''] c.next
      else if after.head? = some '\'' then prepend ['\''] (c.skip 2)
      else return ([], c.next)
    | '\\' :: _ =>
      if double then
        let (piece, c) ← quotedEscape c.next
        prepend piece c
      else prepend ['\\'] c.next
    | char :: _ =>
      if isGap char || isBreak char then
        let (piece, c) ← quotedGap c
        prepend piece c
      else prepend [char] c.next

/-- Blanks and breaks behind a piece of plain text, unless a separator of documents is met. The flag
says whether a line has ended. -/
def plainGap (c : Cursor) : List Char × Bool × Cursor :=
  let (gap, c) := c.takeWhile (· == ' ')
  match c.takeBreak? with
  | none => (gap, false, c)
  | some (first, c) =>
    if isSeparator c then ([], true, c) else breaks first [] c.rest.length c
where
  breaks (first : Char) (found : List Char) : (fuel : Nat) → Cursor → List Char × Bool × Cursor
    | 0, c => (folded first found, true, c)
    | fuel + 1, c =>
      let c := c.dropSpaces
      match c.takeBreak? with
      | none => (folded first found, true, c)
      | some (char, c) =>
        if isSeparator c then ([], true, c) else breaks first (found ++ [char]) fuel c

/-- A plain scalar ends at a blank, at a colon with a blank behind it, and between brackets also at
what has a meaning there. -/
def endsPlain (inFlow : Bool) (char : Char) (after : Option Char) : Bool :=
  isGap char || isBreak char
    || (char == ':' && (isGapOrEnd after || (inFlow && after.any ",[]\x7b\x7d".toList.contains)))
    || (inFlow && ",?[]\x7b\x7d".toList.contains char)

def plainPiece (inFlow : Bool) : List Char → List Char
  | [] => []
  | char :: rest => if endsPlain inFlow char rest.head? then [] else char :: plainPiece inFlow rest

/-- A plain scalar; the flag says whether a line ended behind it. -/
def plainText (inFlow : Bool) (indent : Nat) :
    (fuel : Nat) → (gap : List Char) → (lineEnded : Bool) → Cursor → List Char × Bool × Cursor
  | 0, _, lineEnded, c => ([], lineEnded, c)
  | fuel + 1, gap, lineEnded, c =>
    let piece := if c.peek = some '#' then [] else plainPiece inFlow c.rest
    if piece.isEmpty then ([], lineEnded, c)
    else
      let (space, ended, c) := plainGap (c.skip piece.length)
      if space.isEmpty || c.peek == some '#' || (!inFlow && c.column < indent) then
        (gap ++ piece, ended, c)
      else
        let (more, ended, c) := plainText inFlow indent fuel space ended c
        (gap ++ piece ++ more, ended, c)

inductive Chomping where
  | strip
  | clip
  | keep
  deriving DecidableEq, Repr

def chomping? : Option Char → Option Chomping
  | some '+' => some .keep
  | some '-' => some .strip
  | _ => none

/-- One digit that is not zero. -/
def blockIndent (c : Cursor) : Reading (Option Nat × Cursor) :=
  match c.peek with
  | some '0' => malformed
  | some d => if isDigit d then return (some (digitValue d), c.next) else return (none, c)
  | none => return (none, c)

/-- The marks behind the sign of a block, in either order. -/
def blockHeader (c : Cursor) : Reading (Chomping × Option Nat × Cursor) := do
  let (chomping, indent, c) ← match chomping? c.peek with
    | some chomping => do
      let (indent, c) ← blockIndent c.next
      pure (chomping, indent, c)
    | none => do
      let (indent, c) ← blockIndent c
      match indent, chomping? c.peek with
      | some _, some chomping => pure (chomping, indent, c.next)
      | _, _ => pure (.clip, indent, c)
  if isSpaceOrEnd c.peek then return (chomping, indent, ← c.dropLine) else malformed

/-- Empty lines at the start of a block, and the widest indentation among them. -/
def leadingBreaks : (fuel : Nat) → (widest : Nat) → Cursor → List Char × Nat × Cursor
  | 0, widest, c => ([], widest, c)
  | fuel + 1, widest, c =>
    if c.peek = some ' ' then leadingBreaks fuel (max widest (c.column + 1)) c.next
    else
      match c.takeBreak? with
      | some (char, c) =>
        let (more, widest, c) := leadingBreaks fuel widest c
        (char :: more, widest, c)
      | none => ([], widest, c)

def dropIndent (indent : Nat) (c : Cursor) : Cursor :=
  c.skip ((c.rest.takeWhile (· == ' ')).take (indent - c.column)).length

def blockBreaks (indent : Nat) : (fuel : Nat) → Cursor → List Char × Cursor
  | 0, c => ([], c)
  | fuel + 1, c =>
    let c := dropIndent indent c
    match c.takeBreak? with
    | some (char, c) =>
      let (more, c) := blockBreaks indent fuel c
      (char :: more, c)
    | none => ([], c)

def startsWithGap (c : Cursor) : Bool := c.peek.any isGap

def blockBreak (fold : Bool) (char : Option Char) (breaks : List Char) (gapBefore gapBehind : Bool) :
    List Char :=
  if fold && char == some '\n' && !gapBefore && !gapBehind then
    if breaks.isEmpty then [' '] else []
  else char.toList

/-- The lines of a block, the last line break, and the empty lines behind it. -/
def blockLines (fold : Bool) (indent : Nat) :
    (fuel : Nat) → (breaks : List Char) → Cursor → List Char × Option Char × List Char × Cursor
  | 0, breaks, c => ([], none, breaks, c)
  | fuel + 1, breaks, c =>
    let (line, ended) := c.takeWhile (!isBreak ·)
    let (lineBreak, next) := match ended.takeBreak? with
      | some (char, next) => (some char, next)
      | none => (none, ended)
    let (following, next) := blockBreaks indent next.rest.length next
    if next.column = indent ∧ next.peek.isSome then
      let (more, last, tail, behind) := blockLines fold indent fuel following next
      let between := blockBreak fold lineBreak following (startsWithGap c) (startsWithGap next)
      (breaks ++ line ++ between ++ more, last, tail, behind)
    else (breaks ++ line, lineBreak, following, next)

/-- A block behind its sign; `parent` is the indentation around it. -/
def blockText (fold : Bool) (parent : Nat) (c : Cursor) : Reading (List Char × Cursor) := do
  let (chomping, increment, c) ← blockHeader c
  let least := max parent 1
  let (breaks, indent, c) := match increment with
    | none =>
      let (breaks, widest, c) := leadingBreaks c.rest.length 0 c
      (breaks, max least widest, c)
    | some n =>
      let indent := least + n - 1
      let (breaks, c) := blockBreaks indent c.rest.length c
      (breaks, indent, c)
  let (text, last, tail, c) :=
    if c.column = indent ∧ c.peek.isSome then blockLines fold indent c.rest.length breaks c
    else ([], none, breaks, c)
  return match chomping with
    | .strip => (text, c)
    | .clip => (text ++ last.toList, c)
    | .keep => (text ++ last.toList ++ tail, c)

end ApiSchema.Yaml
