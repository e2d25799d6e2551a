import ApiSchema.Codec
import ApiSchema.TypeText

/-! Types as text: the last suffix of the text is the outermost one of the type. -/

namespace ApiSchema

namespace TypeText

theorem peel?_append (text : String) (suffix : Suffix) :
    peel? (text ++ suffix.text) = some (suffix, text) := by
  cases suffix <;>
    simp [peel?, Suffix.text, String.toList_append, peelBackwards?]

theorem eq_of_peel? {text inner : String} {suffix : Suffix}
    (peeled : peel? text = some (suffix, inner)) : text = inner ++ suffix.text := by
  obtain ⟨⟨suffix', rest⟩, backwards, same⟩ := Option.map_eq_some_iff.mp peeled
  cases same
  apply String.toList_inj.mp
  rw [String.toList_append, String.toList_ofList]
  unfold peelBackwards? at backwards
  split at backwards
  · next written =>
    cases backwards
    rw [← List.reverse_inj, written, List.reverse_append, List.reverse_reverse]
    rfl
  · next written =>
    cases backwards
    rw [← List.reverse_inj, written, List.reverse_append, List.reverse_reverse]
    rfl
  · cases backwards

theorem peel?_primitive (kind : Primitive) : peel? kind.name = none := by
  cases kind <;> decide

theorem peel?_of_optional_text {text : String} (ends : Codec.isOptionalText text = true) :
    ∃ inner, peel? text = some (.optional, inner) := by
  simp only [Codec.isOptionalText, beq_iff_eq, ← List.head?_reverse] at ends
  obtain ⟨rest, written⟩ := List.head?_eq_some_iff.mp ends
  refine ⟨String.ofList rest.reverse, ?_⟩
  rw [peel?, written]
  rfl

theorem join_peelAll (cs : List Char) :
    (peelAll cs).1.foldr (fun suffix text => text ++ suffix.text)
      (String.ofList (peelAll cs).2.reverse) = String.ofList cs.reverse := by
  induction cs using peelAll.induct with
  | case1 rest suffixes base peeled ih =>
    rw [peeled] at ih
    simp only [peelAll, peeled, List.foldr_cons, List.reverse_cons]
    rw [ih, String.ofList_append]
    rfl
  | case2 rest suffixes base peeled ih =>
    rw [peeled] at ih
    simp only [peelAll, peeled, List.foldr_cons, List.reverse_cons, List.append_assoc]
    rw [ih, String.ofList_append]
    rfl
  | case3 base optional array =>
    rw [peelAll]
    · rfl
    all_goals assumption

theorem peelBackwards?_peelAll (cs : List Char) : peelBackwards? (peelAll cs).2 = none := by
  induction cs using peelAll.induct with
  | case1 rest suffixes base peeled ih => simpa [peelAll, peeled] using ih
  | case2 rest suffixes base peeled ih => simpa [peelAll, peeled] using ih
  | case3 base optional array =>
    rw [peelAll]
    · unfold peelBackwards?
      split
      · next written => exact (optional _ written).elim
      · next written => exact (array _ written).elim
      · rfl
    all_goals assumption

theorem exists_base (text : String) : ∃ suffixes name, peel? name = none ∧
    read text = ⟨suffixes, baseOf name⟩ ∧
      text = suffixes.foldr (fun suffix text => text ++ suffix.text) name := by
  refine ⟨_, _, ?_, rfl, ?_⟩
  · rw [peel?, String.toList_ofList, List.reverse_reverse, peelBackwards?_peelAll]
    rfl
  · rw [join_peelAll, List.reverse_reverse, String.ofList_toList]

theorem peelAll_append (suffix : Suffix) (text : String) :
    peelAll (text ++ suffix.text).toList.reverse =
      (suffix :: (peelAll text.toList.reverse).1, (peelAll text.toList.reverse).2) := by
  cases suffix <;> simp [Suffix.text, String.toList_append, peelAll]

theorem peelAll_of_peel? {name : String} (whole : peel? name = none) :
    peelAll name.toList.reverse = ([], name.toList.reverse) := by
  unfold peelAll
  split
  · next rest written => simp [peel?, written, peelBackwards?] at whole
  · next rest written => simp [peel?, written, peelBackwards?] at whole
  · rfl

theorem read_append (suffix : Suffix) (text : String) :
    read (text ++ suffix.text) = ⟨suffix :: (read text).suffixes, (read text).base⟩ := by
  simp only [read, peelAll_append]

theorem read_of_peel? {name : String} (whole : peel? name = none) : read name = ⟨[], baseOf name⟩ := by
  simp only [read, peelAll_of_peel? whole, List.reverse_reverse, String.ofList_toList]

theorem base_of_primitive (kind : Primitive) : baseOf kind.name = .primitive kind := by
  rw [baseOf, Primitive.ofName?_name]

theorem base_of_other {name : String} (other : ∀ kind : Primitive, kind.name ≠ name) :
    baseOf name = .reference name {} := by
  unfold baseOf
  split
  · next kind found => exact absurd (Primitive.name_of_ofName? found) (other kind)
  · rfl

end TypeText

namespace Codec

def scalarOf : Primitive → Scalar
  | .string | .email | .html | .xml | .cpf | .cnpj => .text
  | .int => .int
  | .uint => .uint
  | .float => .float
  | .bigint => .bigint
  | .bool => .bool
  | .bytes => .bytes
  | .money => .money
  | .decimal => .decimal
  | .date => .date
  | .datetime => .datetime
  | .url => .url
  | .uuid => .uuid
  | .hex => .hex
  | .base64 => .base64
  | .json => .json
  | .void => .void

theorem scalar_of_primitive (kind : Primitive) : Scalar.ofName? kind.name = some (scalarOf kind) := by
  cases kind <;> decide

theorem is_optional_text_append (text : String) :
    isOptionalText (text ++ Suffix.optional.text) = true := by
  simp [isOptionalText, Suffix.text, String.toList_append]

end Codec

namespace Schema

variable {s : Schema}

theorem type_name_cons (suffix : Suffix) (rest : List Suffix) (base : TypeBase) :
    s.typeName ⟨suffix :: rest, base⟩ = s.typeName ⟨rest, base⟩ ++ suffix.text := rfl

theorem type_name_base (base : TypeBase) : s.typeName ⟨[], base⟩ = s.baseName base := rfl

theorem base_name_base_of (name : String) : s.baseName (TypeText.baseOf name) = name := by
  unfold TypeText.baseOf
  split
  · next kind found => exact Primitive.name_of_ofName? found
  · rfl

theorem type_name_read (text : String) : s.typeName (TypeText.read text) = text := by
  obtain ⟨suffixes, name, _, same, written⟩ := TypeText.exists_base text
  rw [same, typeName, base_name_base_of, ← written]

end Schema

end ApiSchema
