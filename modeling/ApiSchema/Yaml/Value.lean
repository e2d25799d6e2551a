import ApiSchema.Base64
import ApiSchema.Yaml.Kind
import ApiSchema.Yaml.Parser

/-!
Values of YAML nodes.
-/

namespace ApiSchema.Yaml

def tagStart : String := "tag:yaml.org,2002:"

def scalarTags : List (String × Kind) :=
  [("str", .text), ("null", .null), ("bool", .bool), ("int", .int), ("float", .float),
    ("timestamp", .timestamp), ("merge", .merge), ("value", .equals)].map fun (name, kind) =>
      (tagStart ++ name, kind)

def scalarKind? (tag : Option String) (text : String) : Option Kind :=
  match tag with
  | none => some (Kind.ofText text)
  | some tag => scalarTags.lookup tag

def readScalar (tag : Option String) (plain : Bool) (text : String) : Reading Value :=
  if tag = some (tagStart ++ "binary") then
    if text.toList.all (·.toNat < 0x80) && (Base64.read? false text.toList).isSome then .ok (.bytes [])
    else malformed
  else
    match tag, plain with
    | none, false => .ok (.string text)
    | tag, _ =>
      match scalarKind? tag text with
      | some kind => kind.read text
      | none => malformed

/-- Lists, mappings and sets cannot be keys. -/
def isKey : Value → Bool
  | .list _ | .mapping _ | .tuple _ => false
  | _ => true

def isMergeKey : Node → Bool
  | .scalar none true text => text == "<<"
  | .scalar (some tag) _ _ => tag == tagStart ++ "merge"
  | _ => false

/-- The entries that stand behind a key for merging, those of later mappings first. -/
def mergedEntries (flatten : List (Node × Node) → Reading (List (Node × Node))) :
    Node → Reading (List (Node × Node))
  | .mapping _ entries => flatten entries
  | .sequence _ items => do
    let parts ← items.mapM fun item => match item with
      | .mapping _ entries => flatten entries
      | _ => malformed
    return parts.reverse.flatten
  | _ => malformed

/-- Entries with those that are merged into them in front. -/
def flattenEntries : (fuel : Nat) → List (Node × Node) → Reading (List (Node × Node))
  | 0, _ => malformed
  | fuel + 1, entries => do
    let merged ← (entries.filter fun (key, _) => isMergeKey key).mapM fun (_, value) =>
      mergedEntries (flattenEntries fuel) value
    return merged.flatten ++ entries.filter fun (key, _) => !isMergeKey key

/-- The sign for a default value is text where it is a key. -/
def keyNode : Node → Node
  | .scalar none true "=" => .scalar none false "="
  | node => node

def insertEntry (entries : List (Value × Value)) (entry : Value × Value) :
    Reading (List (Value × Value)) :=
  if isKey entry.1 then .ok (Value.insert entries entry.1 entry.2) else malformed

def singleEntry (value : Value) : Reading Value :=
  match value with
  | .mapping [_] => .ok value
  | _ => malformed

/-- The value of a node, a set being the tuple of its members. Nodes nested deeper than `fuel` and
nodes inside of themselves have none that can be told. -/
def nodeValue : (fuel : Nat) → Node → Reading Value
  | 0, _ => malformed
  | _, .cycle => .ok .null
  | _, .scalar tag plain text => readScalar tag plain text
  | fuel + 1, .sequence tag items => do
    let values ← items.mapM (nodeValue fuel)
    match tag with
    | none => return .list values
    | some tag =>
      if tag = tagStart ++ "seq" then return .list values
      else if tag = tagStart ++ "omap" ∨ tag = tagStart ++ "pairs" then
        return .list (← values.mapM singleEntry)
      else malformed
  | fuel + 1, .mapping tag entries => do
    let entries ← flattenEntries (fuel + 1) entries
    let values ← entries.mapM fun (key, item) => do
      if key matches .cycle then malformed
      else return (← nodeValue fuel (keyNode key), ← nodeValue fuel item)
    let entries ← values.foldlM insertEntry []
    match tag with
    | none => return .mapping entries
    | some tag =>
      if tag = tagStart ++ "map" then return .mapping entries
      else if tag = tagStart ++ "set" then return .tuple (entries.map (·.1))
      else malformed

mutual

def Node.depth : Node → Nat
  | .scalar .. | .cycle => 1
  | .sequence _ items => 1 + itemsDepth items
  | .mapping _ entries => 1 + entriesDepth entries

def itemsDepth : List Node → Nat
  | [] => 0
  | item :: rest => max item.depth (itemsDepth rest)

def entriesDepth : List (Node × Node) → Nat
  | [] => 0
  | (key, item) :: rest => max (max key.depth item.depth) (entriesDepth rest)

end

/-- The value of a text; no document is null. -/
def valueOf (text : String) : Reading Value := do
  match ← read? text with
  | none => return .null
  | some node => nodeValue (node.depth + 1) node

end ApiSchema.Yaml
