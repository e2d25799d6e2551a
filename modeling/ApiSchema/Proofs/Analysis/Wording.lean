import ApiSchema.Proofs.Analysis.Collection
import ApiSchema.Proofs.Analysis.Paths
import ApiSchema.Proofs.TypeText

/-! How the names of structs and enums end. That of the data of an enum's member ends as the text of
the member does; all others end in a name character, so that none of them reads as suffixed. -/

namespace ApiSchema

open Lexer (isNamePart)

def EndsInWord (text : String) : Prop := ∃ c, text.toList.getLast? = some c ∧ isNamePart c = true

namespace EndsInWord

variable {text stem : String}

theorem of_word (word : Lexer.IsWord text) : EndsInWord text := by
  cases last : text.toList.getLast? with
  | none =>
    rw [List.getLast?_eq_none_iff] at last
    exact absurd (String.toList_inj.mp last) word.present
  | some c => exact ⟨c, last, word.spelt c (List.mem_of_getLast? last)⟩

theorem append (ends : EndsInWord text) (stem : String) : EndsInWord (stem ++ text) := by
  obtain ⟨c, last, part⟩ := ends
  exact ⟨c, by rw [String.toList_append, List.getLast?_append, last]; rfl, part⟩

theorem small_of_name_part {c : Char} (part : isNamePart c = true) : c.toNat < 128 := by
  have below : ∀ {last : UInt32}, last < 128 → c.val ≤ last → c.toNat < 128 := fun ascii reached =>
    UInt32.lt_iff_toNat_lt.mp (UInt32.lt_of_le_of_lt reached ascii)
  simp only [isNamePart, Char.isAlphanum, Bool.or_eq_true, beq_iff_eq] at part
  rcases part with (alpha | digit) | rfl
  · rcases Bool.or_eq_true_iff.mp alpha with upper | lower
    · exact below (by decide) (of_decide_eq_true upper).2
    · exact below (by decide) (of_decide_eq_true (Bool.and_eq_true_iff.mp lower).2)
  · exact below (by decide) (of_decide_eq_true (Bool.and_eq_true_iff.mp digit).2)
  · decide

theorem starts_capital_of_word {name : String} (word : Lexer.IsWord name) (more : String) :
    Text.StartsCapital (Text.capitalised (name ++ more)) := by
  cases chars : name.toList with
  | nil => exact absurd (String.toList_inj.mp chars) word.present
  | cons c rest =>
    have small := small_of_name_part (word.spelt c (chars ▸ List.mem_cons_self ..))
    have again : Text.upperChar c.toUpper = [c.toUpper] :=
      Text.of_ascii c small (by decide +kernel)
    refine ⟨c.toUpper, rest ++ more.toList, ?_, again⟩
    rw [Text.capitalised, String.toList_append, chars]
    dsimp only [List.cons_append]
    rw [Text.upperChar, if_pos small, String.toList_ofList]
    rfl

theorem capitalised (ends : EndsInWord text) : EndsInWord (Text.capitalised text) := by
  obtain ⟨c, last, part⟩ := ends
  unfold Text.capitalised
  cases chars : text.toList with
  | nil =>
    rw [chars] at last
    cases last
  | cons first rest =>
    rw [chars] at last
    dsimp only
    cases rest with
    | nil =>
      obtain rfl : first = c := Option.some.inj last
      have small := small_of_name_part part
      have upper : isNamePart first.toUpper = true := by
        revert part
        exact Text.of_ascii first small (by decide +kernel)
      refine ⟨first.toUpper, ?_, upper⟩
      rw [Text.upperChar, if_pos small, String.toList_ofList]
      rfl
    | cons second others =>
      refine ⟨c, ?_, part⟩
      rw [String.toList_ofList, List.getLast?_append]
      rw [List.getLast?_cons_cons] at last
      rw [last]
      rfl

theorem not_peeled (ends : EndsInWord text) : TypeText.peel? text = none := by
  obtain ⟨c, last, part⟩ := ends
  rw [← List.head?_reverse] at last
  obtain ⟨rest, backwards⟩ := List.head?_eq_some_iff.mp last
  rw [TypeText.peel?, backwards]
  unfold TypeText.peelBackwards?
  split
  · next same =>
    cases same
    cases part
  · next same =>
    cases same
    cases part
  · rfl

theorem not_peeled_append (ends : EndsInWord stem) (plain : TypeText.peel? text = none) :
    TypeText.peel? (stem ++ text) = none := by
  have ending := ends.not_peeled
  obtain ⟨c, last, part⟩ := ends
  rw [← List.head?_reverse] at last
  obtain ⟨before, backwards⟩ := List.head?_eq_some_iff.mp last
  simp only [TypeText.peel?, Option.map_eq_none_iff, backwards] at plain ending ⊢
  rw [String.toList_append, List.reverse_append, backwards]
  cases chars : text.toList.reverse with
  | nil => exact ending
  | cons first rest =>
    rw [chars] at plain
    unfold TypeText.peelBackwards? at plain ⊢
    cases rest with
    | nil =>
      split
      · next same =>
        cases same
        cases plain
      · next same =>
        cases same
        cases part
      · rfl
    | cons second others =>
      split
      · next same =>
        cases same
        cases plain
      · next same =>
        cases same
        cases plain
      · rfl

end EndsInWord

namespace Schema

variable {s named expanded final : Schema} {base : TypeBase} {path : List String}

/-- The names that types are called by are words, but for the texts of enums. -/
structure Worded (s : Schema) : Prop where
  definitions : ∀ d ∈ s.definitions, Lexer.IsWord d.name
  errors : ∀ e ∈ s.errors, Lexer.IsWord e.name
  operations : ∀ o ∈ s.operations, Lexer.IsWord o.name
  fields : ∀ id, (s.field id).type.base.IsNested → Lexer.IsWord (s.field id).name

theorem worded_of_parse {files : FileTree} {file source : String} {tree : SchemaTree}
    (parsed : SchemaTree.parse files file source = .ok tree) : (ofTree tree).Worded := by
  have bare := SchemaTree.bare_of_parse parsed
  have holds := holds_bare_of_tree bare
  refine ⟨?_, ?_, ?_, fun id nested => ⟨holds.present id ?_, holds.names id⟩⟩
  · exact map_all (fun d : Definition => Lexer.IsWord d.name)
      (fun d member _ => (bare.types d member).1) _
  · exact map_all (fun e : ErrorKind => Lexer.IsWord e.name)
      (fun e member _ => (bare.errors e member).1) _
  · exact map_all (fun o : Operation => Lexer.IsWord o.name)
      (fun f member _ => (bare.functions f member).1) _
  · by_contra outside
    rw [field_of_size_le (Nat.le_of_not_lt outside)] at nested
    cases nested

theorem Worded.add_fatal (worded : s.Worded) : s.addFatal.Worded := by
  unfold addFatal
  split
  · exact worded
  · have fatal : Lexer.IsWord "Fatal" := ⟨by decide, List.all_eq_true.mp (by decide)⟩
    exact ⟨worded.definitions, List.forall_mem_append.mpr
      ⟨worded.errors, List.forall_mem_singleton.mpr fatal⟩, worded.operations, worded.fields⟩

theorem Names.worded (names : s.Names named) (worded : s.Worded) : named.Worded where
  definitions d member := by
    obtain ⟨first, written, replaced⟩ := exists_left names.definitions member
    rw [replaced.name]
    exact worded.definitions first written
  errors e member := by
    obtain ⟨first, written, replaced⟩ := exists_left names.errors member
    rw [replaced.name]
    exact worded.errors first written
  operations o member := by
    obtain ⟨first, written, replaced⟩ := exists_left names.operations member
    rw [replaced.name]
    exact worded.operations first written
  fields id nested := by
    have same := names.revises.field id
    rw [← same.name]
    exact worded.fields id (same.base.symm.nested nested)

theorem name_of_single (name : String) : Naming.nameOfPath [name] = Text.capitalised name := by
  simp only [Naming.nameOfPath, List.map_cons, List.map_nil, String.join_cons, String.join_nil,
    String.append_empty]

theorem single_name_ends {name : String} (ends : EndsInWord name) :
    EndsInWord (Naming.nameOfPath [name]) := by
  rw [name_of_single]
  exact ends.capitalised

theorem error_data_ends (e : ErrorKind) : EndsInWord (Naming.nameOfPath [e.name ++ "Data"]) := by
  have data : EndsInWord "Data" := ⟨'a', by decide, by decide⟩
  exact single_name_ends (data.append _)

theorem ends_of_called (worded : s.Worded) (called : s.Called path base) (nested : base.IsNested) :
    EndsInWord (Naming.nameOfPath path) ∨
      ∃ e v t, v ∈ (s.enum e).values ∧ v.data = some t ∧ base = .struct t := by
  cases called with
  | error member => exact .inl (error_data_ends _)
  | definition member => exact .inl (single_name_ends (.of_word (worded.definitions _ member)))
  | argument member held =>
    rw [Naming.name_of_path_append]
    exact .inl ((EndsInWord.of_word (worded.fields _ nested)).capitalised.append _)
  | returns member => exact .inl (single_name_ends (.of_word (worded.operations _ member)))
  | inside called nests =>
    cases nests with
    | field held =>
      rw [Naming.name_of_path_append]
      exact .inl ((EndsInWord.of_word (worded.fields _ nested)).capitalised.append _)
    | value member data => exact .inr ⟨_, _, _, member, data, rfl⟩

theorem Called.starts_capital (called : s.Called path base) (worded : s.Worded) :
    Text.StartsCapital (Naming.nameOfPath path) := by
  have single : ∀ name more, Lexer.IsWord name →
      Text.StartsCapital (Naming.nameOfPath [name ++ more]) := fun name more word => by
    rw [name_of_single]
    exact EndsInWord.starts_capital_of_word word _
  have whole : ∀ name, Lexer.IsWord name → Text.StartsCapital (Naming.nameOfPath [name]) :=
    fun name word => by simpa using single name "" word
  induction called with
  | error member => exact single _ _ (worded.errors _ member)
  | definition member => exact whole _ (worded.definitions _ member)
  | argument member held =>
    rw [Naming.name_of_path_append]
    exact (whole _ (worded.operations _ member)).append _
  | returns member => exact whole _ (worded.operations _ member)
  | inside _ _ ih =>
    rw [Naming.name_of_path_append]
    exact ih.append _

inductive Stated (s : Schema) : TypeUse → Prop where
  | definition {d} (member : d ∈ s.definitions) : Stated s d.type
  | error {e} (member : e ∈ s.errors) : Stated s e.data
  | field {t id} (known : s.Known (.struct t)) (held : id ∈ (s.struct t).fields) :
    Stated s (s.field id).type
  | argument {o id} (member : o ∈ s.operations) (held : id ∈ o.args) : Stated s (s.field id).type
  | returns {o} (member : o ∈ s.operations) : Stated s o.returns

theorem Stated.known {t : TypeUse} (stated : s.Stated t) : s.Known t.base := by
  cases stated with
  | definition member => exact known_of_declares (.definition member)
  | error member => exact known_of_declares (.error member)
  | field known held => exact known.reaches (.single (.field (.inr held)))
  | argument member held => exact known_of_declares (.argument member (.inr held))
  | returns member => exact known_of_declares (.returns member)

namespace Accepted

variable (accepted : Accepted s named expanded final) (treelike : s.Treelike) (worded : s.Worded)

include accepted treelike

theorem member_name {e : EnumId} (known : final.Known (.enum e)) {v : EnumValue}
    (member : v ∈ (final.enum e).values) {t : StructId} (data : v.data = some t) :
    (final.struct t).name = (final.enum e).name ++ Text.capitalised v.text := by
  have names := well_named_of_name_types treelike.add_fatal accepted.names
  obtain ⟨path, called⟩ := (accepted.known known).called trivial
  have same : final.enum e = named.enum e := by
    rw [accepted.same_types.enum]
    exact accepted.expands.inherits.enum e
  rw [same] at member
  have outer := names.called path _ called trivial
  have inner := names.called _ _ (called.inside (.value member data)) trivial
  rw [← accepted.base_name] at outer inner
  rw [Naming.name_of_path_append, ← outer] at inner
  exact inner

include worded

theorem named_worded : named.Worded :=
  (names_of_name_types treelike.add_fatal.grounded accepted.names).worded worded.add_fatal

theorem enum_name_ends {e : EnumId} (known : final.Known (.enum e)) :
    EndsInWord (final.enum e).name := by
  have names := well_named_of_name_types treelike.add_fatal accepted.names
  obtain ⟨path, called⟩ := (accepted.known known).called trivial
  have own := names.called path _ called trivial
  rw [← accepted.base_name] at own
  change EndsInWord (final.baseName (.enum e))
  rw [own]
  rcases ends_of_called (accepted.named_worded treelike worded) called trivial with
    ends | ⟨_, _, _, _, _, other⟩
  · exact ends
  · cases other

theorem held_name_ends {u : StructId} {id : FieldId} (known : named.Known (.struct u))
    (held : named.Holds u id) (nested : (named.field id).type.base.IsNested) :
    EndsInWord (final.baseName (named.field id).type.base) := by
  have names := well_named_of_name_types treelike.add_fatal accepted.names
  obtain ⟨path, called⟩ := known.called trivial
  rw [accepted.base_name, names.called _ _ (called.inside (.field held)) nested,
    Naming.name_of_path_append]
  exact (EndsInWord.of_word ((accepted.named_worded treelike worded).fields id nested)).capitalised.append _

theorem stated_name_ends {t : TypeUse} (stated : final.Stated t) (nested : t.base.IsNested) :
    EndsInWord (final.baseName t.base) := by
  have names := well_named_of_name_types treelike.add_fatal accepted.names
  have words := accepted.named_worded treelike worded
  cases stated with
  | @definition d member =>
    rw [accepted.definitions] at member
    rw [accepted.base_name, names.own member nested]
    exact single_name_ends (.of_word (words.definitions d member))
  | @error e member =>
    rw [accepted.final] at member
    have errors : expanded.errors = named.errors := accepted.expands.inherits.errors
    rw [accepted.base_name, names.called _ _ (.error (errors ▸ member)) nested]
    exact error_data_ends e
  | @field t id known held =>
    rw [accepted.field] at nested ⊢
    have held : expanded.Holds t id := by
      rw [← accepted.same_types.holds]
      exact .inr held
    obtain ⟨u, way, held⟩ := accepted.expands.inherits.held held
    exact accepted.held_name_ends treelike worded ((accepted.known known).reaches way) held nested
  | @argument o id member held =>
    rw [accepted.field] at nested ⊢
    rw [accepted.final] at member
    obtain ⟨before, declared, expands⟩ := exists_left accepted.expands.operations member
    have direct : (.field id ∈ before.members ∨ id ∈ before.args) →
        EndsInWord (final.baseName (named.field id).type.base) := by
      intro written
      rw [accepted.base_name, names.called _ _ (.argument declared written) nested,
        Naming.name_of_path_append]
      exact (EndsInWord.of_word (words.fields id nested)).capitalised.append _
    rcases expands.args id held with own | written | ⟨_, _, _, u, spread, way, held⟩
    · exact direct (.inr own)
    · exact direct (.inl written)
    · have known := known_of_declares (.spread declared spread)
      exact accepted.held_name_ends treelike worded (known.reaches way) held nested
  | @returns o member =>
    rw [accepted.final] at member
    obtain ⟨before, declared, expands⟩ := exists_left accepted.expands.operations member
    rw [expands.returns] at nested ⊢
    rw [accepted.base_name, names.called _ _ (.returns declared) nested]
    exact single_name_ends (.of_word (words.operations before declared))

end Accepted

end Schema

end ApiSchema
