import ApiSchema.Json.Reader
import ApiSchema.Tree.Parser
import Mathlib.Tactic.Common

/-! The characters of a text are read off its bytes in one pass, where each of them is below 128.
That is how the kernel parses a text that is given. -/

namespace ApiSchema

def asciiChars (bytes : List UInt8) : List Char := bytes.map fun b => Char.ofNat b.toNat

theorem encode_large {n : Nat} : ¬ UInt8.ofNat (n % 64 + 128) < 128 := by
  have size : n % 64 + 128 < 256 := by omega
  rw [UInt8.lt_iff_toNat_lt, UInt8.toNat_ofNat_of_lt' size]
  exact Nat.not_lt.mpr (Nat.le_add_left 128 _)

theorem ascii_chars_encode {c : Char} (ascii : ∀ b ∈ String.utf8EncodeChar c, b < 128) :
    asciiChars (String.utf8EncodeChar c) = [c] := by
  unfold String.utf8EncodeChar at ascii ⊢
  dsimp only at ascii ⊢
  by_cases small : c.val.toNat ≤ 127
  · have size : c.val.toNat < 256 := by omega
    rw [if_pos small, asciiChars, List.map_singleton, UInt8.toNat_ofNat_of_lt' size]
    exact congrArg (fun d => [d]) (Char.ofNat_toNat c)
  · -- the last byte of a longer encoding is none below 128
    rw [if_neg small] at ascii
    split at ascii
    · exact absurd (ascii _ (.tail _ (.head _))) encode_large
    · split at ascii
      · exact absurd (ascii _ (.tail _ (.tail _ (.head _)))) encode_large
      · exact absurd (ascii _ (.tail _ (.tail _ (.tail _ (.head _))))) encode_large

theorem ascii_chars_flat_map {cs : List Char}
    (ascii : ∀ b ∈ cs.flatMap String.utf8EncodeChar, b < 128) :
    asciiChars (cs.flatMap String.utf8EncodeChar) = cs := by
  induction cs with
  | nil => rfl
  | cons c cs ih =>
    rw [List.flatMap_cons] at ascii ⊢
    have first := ascii_chars_encode fun b held => ascii b (List.mem_append_left _ held)
    have rest := ih fun b held => ascii b (List.mem_append_right _ held)
    unfold asciiChars at first rest ⊢
    rw [List.map_append, first, rest, List.singleton_append]

/-- The characters of a text, by its bytes where that is enough. -/
def textChars (text : String) : List Char :=
  let bytes := text.toByteArray.data.toList
  if bytes.all (· < 128) then asciiChars bytes else text.toList

theorem text_chars (text : String) : textChars text = text.toList := by
  have encoded : text.toByteArray.data.toList = text.toList.flatMap String.utf8EncodeChar := by
    rw [← String.utf8Encode_toList, List.utf8Encode, List.toList_data_toByteArray]
  unfold textChars
  dsimp only
  split
  · next small =>
    rw [encoded] at small ⊢
    exact ascii_chars_flat_map fun b held => of_decide_eq_true (List.all_eq_true.mp small b held)
  · rfl

theorem Json.read_by_chars {text : String} : Json.read? text =
    match Json.readValue (2 * (Json.skipSpace (textChars text)).length + 2)
        (Json.skipSpace (textChars text)) with
    | some (value, rest) => if (Json.skipSpace rest).isEmpty then some value else none
    | none => none := by
  rw [text_chars]
  rfl

theorem TokenStream.of_source_by_chars {file source : String} : TokenStream.ofSource file source =
    TokenStream.read file ((textChars source).length + 1) ⟨textChars source, .start⟩ := by
  rw [text_chars, TokenStream.ofSource, Cursor.ofSource, String.length_toList]

namespace SchemaTree

def parseChars (tree : FileTree) (file : String) (cs : List Char) :
    Except ParseFailure SchemaTree := do
  if file != "-" && FileTree.hasNull (FilePath.ofText file) then throw .notText
  let imported := if file = "-" then [] else [tree.resolve (FilePath.ofText file)]
  let start : ParseState := {
    current := none
    rest := TokenStream.read file (cs.length + 1) ⟨cs, .start⟩
    last := ⟨file, .start⟩
    pending := []
    warnings := []
    imported }
  let run : Parser SchemaTree := do
    Parser.readAhead
    let schema ← Parser.parseDeclarations tree (cs.length + tree.totalSize + 1) {}
    return { schema with warnings := (← get).warnings }
  run.run' start

theorem parse_by_chars {tree : FileTree} {file source : String} :
    parse tree file source = parseChars tree file (textChars source) := by
  rw [parse, parseChars, TokenStream.of_source_by_chars, text_chars, String.length_toList]

end SchemaTree

end ApiSchema
