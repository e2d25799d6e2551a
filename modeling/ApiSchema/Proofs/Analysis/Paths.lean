import ApiSchema.Codec.Scalar
import ApiSchema.Proofs.Analysis.Labelling
import ApiSchema.Proofs.Schema.Unexpanded

/-! Structs and enums are named after paths. Such a name starts with no small letter, so that it is
none of a scalar type. -/

namespace ApiSchema

namespace Text

theorem upper_runs_above : ∀ run ∈ upperRuns,
    122 < (run.first : Int) + run.shift ∨ (run.last : Int) + run.shift < 97 := by
  decide +kernel

theorem upper_sequences_above : ∀ entry ∈ upperSequences, ∀ code ∈ entry.2,
    (Char.ofNat code).isLower = false := by
  decide +kernel

theorem upper_sequences_present : ∀ entry ∈ upperSequences, entry.2 ≠ [] := by
  decide +kernel

theorem mem_upper_sequences {code : Nat} {codes : List Nat}
    (found : upperSequences.lookup code = some codes) : (code, codes) ∈ upperSequences := by
  obtain ⟨before, after, same, _⟩ := List.lookup_eq_some_iff.mp found
  rw [same]
  exact List.mem_append_right _ (List.mem_cons_self ..)

theorem is_lower_iff {c : Char} : c.isLower = true ↔ 97 ≤ c.toNat ∧ c.toNat ≤ 122 := by
  change (decide (c.val ≥ 'a'.val) && decide (c.val ≤ 'z'.val)) = true ↔ _
  rw [Bool.and_eq_true, decide_eq_true_iff, decide_eq_true_iff]
  exact Iff.rfl

theorem of_nat_not_lower {code : Nat} (apart : code < 97 ∨ 122 < code) :
    (Char.ofNat code).isLower = false := by
  rw [← Bool.not_eq_true, is_lower_iff]
  intro within
  by_cases valid : code.isValidChar
  · rw [Char.ofNat, dif_pos valid] at within
    have same : (Char.ofNatAux code valid).toNat = code := by
      unfold Char.ofNatAux Char.toNat
      simp
    omega
  · rw [Char.ofNat, dif_neg valid] at within
    exact absurd within (by decide)

theorem target_apart {run : Run} (member : run ∈ upperRuns) {code target : Nat}
    (found : run.target? code = some target) : target < 97 ∨ 122 < target := by
  obtain ⟨within, same⟩ := Option.ite_none_right_eq_some.mp found
  cases same
  rcases upper_runs_above run member with above | below
  · right
    omega
  · left
    omega

theorem upper_char_not_lower {c d : Char} (member : d ∈ upperChar c) : d.isLower = false := by
  unfold upperChar at member
  split at member
  · next small =>
    rw [List.mem_singleton] at member
    subst member
    exact of_ascii c small (by decide +kernel)
  · next large =>
    unfold mapped at member
    split at member
    · next codes found =>
      obtain ⟨code, listed, rfl⟩ := List.mem_map.mp member
      exact upper_sequences_above _ (mem_upper_sequences found) code listed
    · rw [List.mem_singleton] at member
      subst member
      apply of_nat_not_lower
      cases found : upperRuns.findSome? (·.target? c.toNat) with
      | none =>
        rw [Option.getD_none]
        omega
      | some target =>
        obtain ⟨run, listed, found⟩ := List.exists_of_findSome?_eq_some found
        exact target_apart listed found

theorem upper_char_present (c : Char) : upperChar c ≠ [] := by
  unfold upperChar
  split
  · exact List.cons_ne_nil _ _
  · unfold mapped
    split
    · next codes found =>
      exact fun none =>
        upper_sequences_present _ (mem_upper_sequences found) (List.map_eq_nil_iff.mp none)
    · exact List.cons_ne_nil _ _

def StartsCapital (text : String) : Prop := ∃ c rest, text.toList = c :: rest ∧ upperChar c = [c]

namespace StartsCapital

variable {text : String}

theorem append (starts : StartsCapital text) (more : String) : StartsCapital (text ++ more) := by
  obtain ⟨c, rest, chars, own⟩ := starts
  exact ⟨c, rest ++ more.toList, by rw [String.toList_append, chars]; rfl, own⟩

theorem capitalised (starts : StartsCapital text) : Text.capitalised text = text := by
  obtain ⟨c, rest, chars, own⟩ := starts
  unfold Text.capitalised
  rw [chars]
  dsimp only
  rw [own, List.singleton_append, ← chars, String.ofList_toList]

theorem present (starts : StartsCapital text) : text ≠ "" := by
  rintro rfl
  obtain ⟨_, _, chars, _⟩ := starts
  cases chars

theorem of_start (capital : Parser.startsWithCapital text = true) : StartsCapital text := by
  unfold Parser.startsWithCapital at capital
  cases chars : text.toList with
  | nil =>
    rw [chars] at capital
    cases capital
  | cons c rest =>
    rw [chars] at capital
    have upper : c.isUpper = true := capital
    have small : c.toNat < 128 := by
      have last : c.val ≤ 'Z'.val := (of_decide_eq_true upper).2
      exact Nat.lt_of_le_of_lt (UInt32.le_iff_toNat_le.mp last) (by decide)
    have own : c.toUpper = c := by
      revert upper
      exact of_ascii c small (by decide +kernel)
    exact ⟨c, rest, chars, by rw [upperChar, if_pos small, own]⟩

end StartsCapital

theorem capitalised_of_capital {text : String} (capital : Parser.startsWithCapital text = true) :
    capitalised text = text :=
  (StartsCapital.of_start capital).capitalised

theorem capitalised_head {text : String} {c : Char}
    (head : (capitalised text).toList.head? = some c) : c.isLower = false := by
  unfold capitalised at head
  split at head
  · cases head
  · next first rest _ =>
    obtain ⟨d, others, upper⟩ := List.exists_cons_of_ne_nil (upper_char_present first)
    rw [String.toList_ofList, upper] at head
    cases head
    exact upper_char_not_lower (upper ▸ List.mem_cons_self ..)

end Text

namespace Naming

theorem name_of_path_head {path : List String} {c : Char}
    (head : (nameOfPath path).toList.head? = some c) : c.isLower = false := by
  rw [nameOfPath, String.toList_join, List.flatMap_map, List.head?_flatMap] at head
  obtain ⟨piece, _, found⟩ := List.exists_of_findSome?_eq_some head
  exact Text.capitalised_head found

theorem scalar_names_lower : ∀ entry ∈ Codec.scalarNames,
    entry.1.toList.head?.any Char.isLower = true := by
  decide +kernel

theorem not_scalar {name : String} (head : ∀ c, name.toList.head? = some c → c.isLower = false) :
    Codec.Scalar.ofName? name = none := by
  cases found : Codec.Scalar.ofName? name with
  | none => rfl
  | some s =>
    obtain ⟨before, after, same, _⟩ := List.lookup_eq_some_iff.mp found
    have member : (name, s) ∈ Codec.scalarNames := by
      rw [same]
      exact List.mem_append_right _ (List.mem_cons_self ..)
    obtain ⟨c, first, lower⟩ := (Option.any_eq_true _ _).mp (scalar_names_lower _ member)
    rw [head c first] at lower
    cases lower

end Naming

theorem Parser.parse_type_declaration_capital :
    Yields parseTypeDeclaration fun d => startsWithCapital d.name = true := by
  apply Yields.after
  intro word
  apply Yields.after
  rintro ⟨name, location⟩
  dsimp -zeta only
  extract_lets named
  split
  · next capital =>
    apply Yields.after
    intro _
    apply Yields.after
    intro notes
    exact parse_type_here_bare.bind fun type _ => .pure capital
  · have failed : Yields (fail (.smallTypeName name) location : Parser PUnit) fun _ => False := .fail
    exact failed.bind nofun

namespace Schema

theorem capital_of_parse {files : FileTree} {file source : String} {tree : SchemaTree}
    (parsed : SchemaTree.parse files file source = .ok tree) :
    ∀ d ∈ (ofTree tree).definitions, Parser.startsWithCapital d.name = true := by
  have written := (Parser.each_of_parse Parser.parse_type_declaration_capital
    Parser.parse_error_declaration_bare Parser.parse_function_declaration_bare parsed).types
  have loaded : ∀ d ∈ (tree.types.mapM loadDefinition {}).1,
      Parser.startsWithCapital d.name = true := by
    apply map_all
    intro d member s
    exact written d member
  exact loaded

end Schema

end ApiSchema
