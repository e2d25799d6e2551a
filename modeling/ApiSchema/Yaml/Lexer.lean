import ApiSchema.Yaml.Scalar

/-!
Tokens of a YAML stream. A key is known as such only when its colon is met: tokens are therefore
kept in order, and the places where keys begin are added when all tokens are known.
-/

namespace ApiSchema.Yaml

inductive Directive where
  | version (major : Nat)
  | tag (handle start : String)
  | unknown
  deriving DecidableEq, Repr

/-- A tag without handle is written out in full. -/
structure Tag where
  handle : Option String
  suffix : String
  deriving DecidableEq, Repr

inductive Token where
  | directive (d : Directive)
  | documentStart
  | documentEnd
  | sequenceStart
  | mappingStart
  | blockEnd
  | entry
  | key
  | value
  | flowSequenceStart
  | flowSequenceEnd
  | flowMappingStart
  | flowMappingEnd
  | flowEntry
  | alias (name : String)
  | anchor (name : String)
  | tag (t : Tag)
  | scalar (text : String) (plain : Bool)
  deriving DecidableEq, Repr

/-- A token that may turn out to be a key. It has to be on one line and not too long, and where a
key is required nothing else will do. -/
structure PossibleKey where
  level : Nat
  token : Nat
  required : Bool
  index : Nat
  line : Nat
  column : Nat

structure Lexer where
  cursor : Cursor
  level : Nat := 0
  /-- The column of the innermost block, and of those around it. -/
  indent : Int := -1
  outer : List Int := []
  keyAllowed : Bool := true
  possible : List PossibleKey := []
  /-- The tokens so far, the last one first. -/
  tokens : List Token := []
  count : Nat := 0
  /-- Tokens that begin keys, and whether they begin a mapping too. -/
  keys : List (Nat × Bool) := []

namespace Lexer

def push (l : Lexer) (t : Token) : Lexer := { l with tokens := t :: l.tokens, count := l.count + 1 }

def pushAt (l : Lexer) (t : Token) (c : Cursor) : Lexer := { l.push t with cursor := c }

def inFlow (l : Lexer) : Bool := 0 < l.level

def possibleHere? (l : Lexer) : Option PossibleKey := l.possible.find? (·.level == l.level)

def forgetHere (l : Lexer) : Lexer :=
  { l with possible := l.possible.filter (·.level != l.level) }

/-- The token on this level is no key after all. -/
def dropPossible (l : Lexer) : Reading Lexer :=
  match l.possibleHere? with
  | some key => if key.required then malformed else return l.forgetHere
  | none => return l

/-- Tokens that are too far away are no keys any more. -/
def dropStale (l : Lexer) : Reading Lexer :=
  let isStale (key : PossibleKey) : Bool :=
    key.line != l.cursor.line || 1024 < l.cursor.index - key.index
  if l.possible.any fun key => isStale key && key.required then malformed
  else return { l with possible := l.possible.filter (!isStale ·) }

/-- The next token may be a key. -/
def savePossible (l : Lexer) : Reading Lexer := do
  if l.keyAllowed then
    let l ← l.dropPossible
    let c := l.cursor
    let required := !l.inFlow && l.indent == c.column
    return { l with possible := ⟨l.level, l.count, required, c.index, c.line, c.column⟩ :: l.possible }
  else return l

def unwind (column : Int) : (fuel : Nat) → Lexer → Lexer
  | 0, l => l
  | fuel + 1, l =>
    if l.inFlow ∨ l.indent ≤ column then l
    else
      match l.outer with
      | [] => l
      | indent :: outer => unwind column fuel { l.push .blockEnd with indent, outer }

def unwindTo (l : Lexer) (column : Int) : Lexer := unwind column l.outer.length l

/-- Opens a block at a column, unless one is open there. -/
def openBlock (l : Lexer) (column : Nat) : Lexer × Bool :=
  if l.indent < column then
    ({ l with indent := column, outer := l.indent :: l.outer }, true)
  else (l, false)

def openBlockWith (l : Lexer) (start : Token) : Lexer :=
  let (l, opened) := l.openBlock l.cursor.column
  if opened then l.push start else l

/-- Spaces, comments and line breaks; in a block a key may follow a line break. -/
def dropBetween : (fuel : Nat) → Lexer → Lexer
  | 0, l => l
  | fuel + 1, l =>
    let c := l.cursor.dropSpaces.dropComment
    match c.takeBreak? with
    | some (_, c) =>
      dropBetween fuel { l with cursor := c, keyAllowed := l.keyAllowed || !l.inFlow }
    | none => { l with cursor := c }

def isNameChar (c : Char) : Bool := c.isAlphanum || c == '-' || c == '_'

def versionNumber (c : Cursor) : Reading (Nat × Cursor) :=
  let (digits, c) := c.takeWhile isDigit
  if digits.isEmpty then malformed
  else if exceedsDigitLimit digits.length then .error .valueless
  else return (digitsValue digits, c)

def hexByte? (c : Cursor) : Option UInt8 :=
  let digits := c.rest.take 2
  if digits.length = 2 then (Json.hexNumber? digits).map UInt8.ofNat else none

/-- Bytes behind percent signs, which together have to be text. -/
def uriEscapes : (fuel : Nat) → Cursor → Reading (List UInt8 × Cursor)
  | 0, c => return ([], c)
  | fuel + 1, c =>
    if c.peek = some '%' then
      match hexByte? c.next with
      | none => malformed
      | some byte => do
        let (more, c) ← uriEscapes fuel (c.skip 3)
        return (byte :: more, c)
    else return ([], c)

def isUriChar (c : Char) : Bool := isNameChar c || ";/?:@&=+$,.!~*'()[]%".toList.contains c

def uriText : (fuel : Nat) → Cursor → Reading (List Char × Cursor)
  | 0, c => return ([], c)
  | fuel + 1, c =>
    match c.peek with
    | some '%' => do
      let (bytes, c) ← uriEscapes c.rest.length c
      match String.fromUTF8? ⟨bytes.toArray⟩ with
      | none => malformed
      | some text => do
        let (more, c) ← uriText fuel c
        return (text.toList ++ more, c)
    | some char =>
      if isUriChar char then do
        let (more, c) ← uriText fuel c.next
        return (char :: more, c)
      else return ([], c)
    | none => return ([], c)

def uri (c : Cursor) : Reading (String × Cursor) := do
  if (c.peek.map isUriChar).getD false then
    let (text, c) ← uriText c.rest.length c
    return (String.ofList text, c)
  else malformed

/-- An exclamation mark, or a name between two of them. -/
def tagHandle (c : Cursor) : Reading (String × Cursor) :=
  if c.peek ≠ some '!' then malformed
  else if c.peekAt 1 = some ' ' then return ("!", c.next)
  else
    let (name, ended) := c.next.takeWhile isNameChar
    if ended.peek = some '!' then return (String.ofList ('!' :: name ++ ['!']), ended.next)
    else malformed

def directive (c : Cursor) : Reading (Directive × Cursor) := do
  let (name, c) := c.next.takeWhile isNameChar
  if name.isEmpty || !isSpaceOrEnd c.peek then malformed
  else if name = "YAML".toList then
    let (major, c) ← versionNumber c.dropSpaces
    if c.peek ≠ some '.' then malformed
    else
      let (_, c) ← versionNumber c.next
      if isSpaceOrEnd c.peek then return (.version major, ← c.dropLine) else malformed
  else if name = "TAG".toList then
    let (handle, c) ← tagHandle c.dropSpaces
    if c.peek ≠ some ' ' then malformed
    else
      let (start, c) ← uri c.dropSpaces
      if isSpaceOrEnd c.peek then return (.tag handle start, ← c.dropLine) else malformed
  else return (.unknown, ← (c.dropWhile (!isBreak ·)).dropLine)

/-- A tag with a handle has a second exclamation mark before the next blank. -/
def tagText (c : Cursor) : Reading (Tag × Cursor) := do
  let (tag, c) ←
    if c.peekAt 1 = some '<' then do
      let (suffix, c) ← uri (c.skip 2)
      if c.peek = some '>' then pure (Tag.mk none suffix, c.next) else malformed
    else if isGapOrEnd (c.peekAt 1) then pure (Tag.mk none "!", c.next)
    else do
      let word := c.next.rest.takeWhile fun char => !(char == ' ' || isBreak char)
      let (handle, c) ← if word.contains '!' then tagHandle c else pure ("!", c.next)
      let (suffix, c) ← uri c
      pure (Tag.mk (some handle) suffix, c)
  if isSpaceOrEnd c.peek then return (tag, c) else malformed

/-- The name behind the sign of an alias or an anchor. -/
def anchorName (c : Cursor) : Reading (String × Cursor) :=
  let (name, c) := c.next.takeWhile isNameChar
  let closed := isGapOrEnd c.peek || c.peek.any "?:,]\x7d%@`".toList.contains
  if name.isEmpty || !closed then malformed else return (String.ofList name, c)

def keyToken (l : Lexer) (read : Cursor → Reading (Token × Cursor)) : Reading Lexer := do
  let l ← l.savePossible
  let (t, c) ← read l.cursor
  return { l.pushAt t c with keyAllowed := false }

def openFlow (l : Lexer) (t : Token) : Reading Lexer := do
  let l ← l.savePossible
  return { l.pushAt t l.cursor.next with level := l.level + 1, keyAllowed := true }

def closeFlow (l : Lexer) (t : Token) : Reading Lexer := do
  let l ← l.dropPossible
  if l.level = 0 then malformed
  else return { l.pushAt t l.cursor.next with level := l.level - 1, keyAllowed := false }

def separate (l : Lexer) : Reading Lexer := do
  let l ← l.dropPossible
  return { l.pushAt .flowEntry l.cursor.next with keyAllowed := true }

def blockEntry (l : Lexer) : Reading Lexer := do
  if !l.inFlow && !l.keyAllowed then malformed
  else
    let l := if l.inFlow then l else l.openBlockWith .sequenceStart
    let l ← l.dropPossible
    return { l.pushAt .entry l.cursor.next with keyAllowed := true }

def explicitKey (l : Lexer) : Reading Lexer := do
  if !l.inFlow && !l.keyAllowed then malformed
  else
    let l := if l.inFlow then l else l.openBlockWith .mappingStart
    let l ← l.dropPossible
    return { l.pushAt .key l.cursor.next with keyAllowed := !l.inFlow }

/-- A colon makes a key of the last token that can be one. -/
def value (l : Lexer) : Reading Lexer := do
  match l.possibleHere? with
  | some key =>
    let l := l.forgetHere
    let (l, opened) := if l.inFlow then (l, false) else l.openBlock key.column
    return { l.pushAt .value l.cursor.next with
      keys := (key.token, opened) :: l.keys, keyAllowed := false }
  | none =>
    if !l.inFlow && !l.keyAllowed then malformed
    else
      let l := if l.inFlow then l else l.openBlockWith .mappingStart
      return { l.pushAt .value l.cursor.next with keyAllowed := !l.inFlow }

def documentMark (l : Lexer) (t : Token) : Reading Lexer := do
  let l ← (l.unwindTo (-1)).dropPossible
  return { l.pushAt t (l.cursor.skip 3) with keyAllowed := false }

def directiveLine (l : Lexer) : Reading Lexer := do
  let l ← (l.unwindTo (-1)).dropPossible
  let (d, c) ← directive l.cursor
  return { l.pushAt (.directive d) c with keyAllowed := false }

def blockScalar (l : Lexer) (fold : Bool) : Reading Lexer := do
  let l ← l.dropPossible
  let (text, c) ← blockText fold (l.indent + 1).toNat l.cursor.next
  return { l.pushAt (.scalar (String.ofList text) false) c with keyAllowed := true }

def quotedScalar (l : Lexer) (double : Bool) : Reading Lexer :=
  l.keyToken fun c => do
    let (text, c) ← quotedText double c.rest.length c.next
    return (.scalar (String.ofList text) false, c)

def plainScalar (l : Lexer) : Reading Lexer := do
  let l ← l.savePossible
  let c := l.cursor
  let (text, ended, c) := plainText l.inFlow (l.indent + 1).toNat c.rest.length [] false c
  return { l.pushAt (.scalar (String.ofList text) true) c with keyAllowed := ended }

/-- Whether a plain scalar can begin here; three signs need something other than a blank behind
them. -/
def startsPlain (l : Lexer) (char : Char) (after : Option Char) : Bool :=
  !(isGap char || isBreak char || "-?:,[]\x7b\x7d#&*!|>'\"%@`".toList.contains char)
    || (!isGapOrEnd after && (char == '-' || (!l.inFlow && (char == '?' || char == ':'))))

def readToken (l : Lexer) (char : Char) : Reading Lexer :=
  let c := l.cursor
  let atStart := c.column == 0
  let gapBehind := isGapOrEnd (c.peekAt 1)
  if char = '%' ∧ atStart then l.directiveLine
  else if char = '-' ∧ atStart ∧ isSeparator c then l.documentMark .documentStart
  else if char = '.' ∧ atStart ∧ isSeparator c then l.documentMark .documentEnd
  else if char = '[' then l.openFlow .flowSequenceStart
  else if char = '\x7b' then l.openFlow .flowMappingStart
  else if char = ']' then l.closeFlow .flowSequenceEnd
  else if char = '\x7d' then l.closeFlow .flowMappingEnd
  else if char = ',' then l.separate
  else if char = '-' ∧ gapBehind then l.blockEntry
  else if char = '?' ∧ (l.inFlow ∨ gapBehind) then l.explicitKey
  else if char = ':' ∧ (l.inFlow ∨ gapBehind) then l.value
  else if char = '*' then l.keyToken fun c => do
    let (name, c) ← anchorName c
    return (.alias name, c)
  else if char = '&' then l.keyToken fun c => do
    let (name, c) ← anchorName c
    return (.anchor name, c)
  else if char = '!' then l.keyToken fun c => do
    let (t, c) ← tagText c
    return (.tag t, c)
  else if char = '|' ∧ !l.inFlow then l.blockScalar false
  else if char = '>' ∧ !l.inFlow then l.blockScalar true
  else if char = '\'' then l.quotedScalar false
  else if char = '"' then l.quotedScalar true
  else if l.startsPlain char (c.peekAt 1) then l.plainScalar
  else malformed

def finish (l : Lexer) : Reading Lexer := do (l.unwindTo (-1)).dropPossible

/-- Every token takes at least one character. -/
def run : (fuel : Nat) → Lexer → Reading Lexer
  | 0, l => l.finish
  | fuel + 1, l => do
    let l ← (dropBetween l.cursor.rest.length l).dropStale
    let l := l.unwindTo l.cursor.column
    match l.cursor.peek with
    | none => l.finish
    | some char => do
      let l ← l.readToken char
      run fuel l

/-- The tokens in order, with the keys where they begin. -/
def linear (keys : List (Nat × Bool)) : (index : Nat) → List Token → List Token
  | _, [] => []
  | index, t :: rest =>
    let marks := match keys.lookup index with
      | some true => [.mappingStart, .key]
      | some false => [.key]
      | none => []
    marks ++ t :: linear keys (index + 1) rest

def isPrintable (c : Char) : Bool :=
  let n := c.toNat
  n == 9 || n == 10 || n == 13 || (0x20 ≤ n && n ≤ 0x7e) || n == 0x85
    || (0xa0 ≤ n && n ≤ 0xfffd) || 0x10000 ≤ n

/-- The tokens of a stream, which a byte order mark may precede. -/
def tokensOf (text : String) : Reading (List Token) := do
  let cs := text.toList
  if !cs.all isPrintable then malformed
  else
    let start := Cursor.ofText cs
    let cursor := if start.peek = some '\ufeff' then start.next else start
    let l ← run (cs.length + 1) { cursor }
    return linear l.keys 0 l.tokens.reverse

end Lexer

end ApiSchema.Yaml
