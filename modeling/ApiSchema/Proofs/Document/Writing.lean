import ApiSchema.Artifact
import ApiSchema.Proofs.Document.Entries
import ApiSchema.Proofs.Json.RoundTrip
import ApiSchema.Proofs.Tree.Annotating

/-! The artifact of an accepted source can be written: no two of its structs and enums share a name, and
no number in its annotations is longer than those that were read. -/

namespace ApiSchema

def Annotation.IsShort : Annotation → Prop
  | .statusCode code => exceedsDigitLimit (digitsOf code.natAbs).length = false
  | _ => True

section Notes

theorem Parser.short_of_annotation {text : String} {content : Annotation}
    (read : annotationOf text = .ok (some content)) : content.IsShort := by
  unfold annotationOf at read
  dsimp only at read
  split at read
  · cases read
    trivial
  · split at read
    · cases read
    · cases read
      trivial
  · cases read
    trivial
  · split at read
    · cases read
      trivial
    · cases read
  · split at read
    · cases read
      trivial
    · cases read
  · split at read
    · cases read
    · next digits =>
      split at read
      · cases read
      · next fits =>
        cases read
        rw [Bool.or_eq_true, not_or] at digits
        refine short_of_digits ?_ (by simpa using digits.2) (Bool.eq_false_iff.mpr fits)
        exact fun none => digits.1 (by rw [none]; rfl)
  · cases read

theorem SchemaTree.short_of_parse {files : FileTree} {file source : String} {tree : SchemaTree}
    (parsed : parse files file source = .ok tree) :
    ∀ b ∈ tree.bearings, b.2.content.IsShort := by
  obtain ⟨_, ts, ps, _, pieces, rfl⟩ := Grammar.parse_iff_pieces.mp parsed
  obtain ⟨l, perm, lands⟩ := pieces.lands fun word f listed => Grammar.mem_functions listed
  intro b member
  have listed := ((Grammar.sites_of_tree _).flatMap_right _).trans perm.symm |>.mem_iff.mp member
  obtain ⟨_, _, landed⟩ := exists_left lands listed
  cases landed with
  | own written =>
    obtain ⟨text, content, _, read, rfl⟩ := written
    exact Parser.short_of_annotation read
  | argument => trivial

end Notes

namespace Schema

variable {s named expanded final : Schema}

def ShortNotes (s : Schema) : Prop :=
  (∀ o ∈ s.operations, ∀ n ∈ o.notes, n.content.IsShort) ∧ ∀ e ∈ s.errors, ∀ n ∈ e.notes, n.content.IsShort

theorem map_related {α β : Type} {f : α → Loading β} {related : α → β → Prop}
    (step : ∀ a s, related a (f a s).1) (items : List α) (s : Schema) :
    List.Forall₂ related items (items.mapM f s).1 := by
  induction items generalizing s with
  | nil => exact .nil
  | cons a rest ih =>
    rw [List.mapM_cons]
    exact .cons (step a s) (ih _)

theorem short_of_tree {tree : SchemaTree} (short : ∀ b ∈ tree.bearings, b.2.content.IsShort) :
    (ofTree tree).ShortNotes := by
  have bears : ∀ {site : Site} {n : Note}, site ∈ tree.sites → n ∈ site.notes → n.content.IsShort :=
    fun {site n} listed noted => short (site, n)
      (List.mem_flatMap.mpr ⟨site, listed, List.mem_map_of_mem noted⟩)
  have operations : List.Forall₂ (fun (f : FunctionDeclaration) (o : Operation) => o.notes = f.notes)
      tree.functions (ofTree tree).operations := map_related (f := loadOperation) (fun _ _ => rfl) _ _
  have errors : List.Forall₂ (fun (e : ErrorDeclaration) (e' : ErrorKind) => e'.notes = e.notes)
      tree.errors (ofTree tree).errors := map_related (f := loadError) (fun _ _ => rfl) _ _
  constructor
  · intro o member n noted
    obtain ⟨f, listed, same⟩ := exists_left operations member
    rw [same] at noted
    refine bears (?_ : Site.function f ∈ tree.sites) noted
    exact List.mem_append_right _ (List.mem_flatMap.mpr ⟨f, listed, List.mem_cons_self ..⟩)
  · intro e member n noted
    obtain ⟨e', listed, same⟩ := exists_left errors member
    rw [same] at noted
    refine bears (?_ : Site.error e' ∈ tree.sites) noted
    exact List.mem_append_left _ (List.mem_append_right _
      (List.mem_flatMap.mpr ⟨e', listed, List.mem_cons_self ..⟩))

theorem Accepted.short_notes (accepted : Accepted s named expanded final) (grounded : s.Grounded)
    (short : s.ShortNotes) : final.ShortNotes := by
  have renamed := names_of_name_types grounded.add_fatal accepted.names
  constructor
  · intro o member n noted
    rw [accepted.final] at member
    obtain ⟨o₁, declared, expands⟩ := exists_left accepted.expands.operations member
    obtain ⟨o₀, listed, replaced⟩ := exists_left renamed.operations declared
    rw [add_fatal_operations] at listed
    rw [expands.notes, replaced.notes] at noted
    exact short.1 o₀ listed n noted
  · intro e member n noted
    rw [accepted.final] at member
    have declared : e ∈ named.errors := accepted.expands.inherits.errors ▸ member
    obtain ⟨e₀, listed, replaced⟩ := exists_left renamed.errors declared
    rw [replaced.notes] at noted
    unfold addFatal at listed
    split at listed
    · exact short.2 e₀ listed n noted
    · rcases List.mem_append.mp listed with own | fatal
      · exact short.2 e₀ own n noted
      · rw [List.mem_singleton.mp fatal] at noted
        cases noted

theorem short_placed (short : s.ShortNotes) : ∀ placed ∈ s.placedNotes, placed.2.IsShort := by
  have stored : ∀ {a : Annotation}, a.IsShort → (storedNote a).IsShort := by
    intro a short
    cases a with
    | rest => trivial
    | _ => exact short
  have described : ∀ place ids, ∀ placed ∈ s.fieldNotes place ids, placed.2.IsShort := by
    intro place ids placed member
    obtain ⟨id, _, inside⟩ := List.mem_flatMap.mp member
    obtain ⟨text, _, rfl⟩ := List.mem_map.mp inside
    trivial
  intro placed member
  rcases List.mem_append.mp member with before | errors
  · rcases List.mem_append.mp before with structs | operations
    · obtain ⟨t, _, inside⟩ := List.mem_flatMap.mp structs
      exact described _ _ placed inside
    · obtain ⟨o, listed, inside⟩ := List.mem_flatMap.mp operations
      rcases List.mem_append.mp inside with fields | own
      · exact described _ _ placed fields
      · obtain ⟨n, noted, rfl⟩ := List.mem_map.mp own
        exact stored (short.1 o listed n noted)
  · obtain ⟨e, listed, inside⟩ := List.mem_flatMap.mp errors
    obtain ⟨n, noted, rfl⟩ := List.mem_map.mp inside
    exact stored (short.2 e listed n noted)

end Schema

section Texts

variable {spacing : Json.Spacing}

def Value.IsWritten (spacing : Json.Spacing) (value : Value) : Prop := (Json.write? spacing value).isSome = true

namespace Document

theorem written_list {items : List Value} (each : ∀ item ∈ items, item.IsWritten spacing) :
    (Value.list items).IsWritten spacing := by
  have items : (Json.writeItems? spacing items).isSome = true := by
    induction items with
    | nil => rfl
    | cons item rest ih =>
      obtain ⟨own, others⟩ := List.forall_mem_cons.mp each
      exact Json.write_items_cons_some own (ih others)
  rw [Value.IsWritten, Json.write?, Option.isSome_map]
  exact items

theorem written_items {α : Type} {write : α → Value} {items : List α}
    (each : ∀ a ∈ items, (write a).IsWritten spacing) : (Value.list (items.map write)).IsWritten spacing :=
  written_list fun item listed => by
    obtain ⟨a, present, rfl⟩ := List.mem_map.mp listed
    exact each a present

theorem written_record {members : List (String × Value)}
    (each : ∀ member ∈ members, member.2.IsWritten spacing) : (record members).IsWritten spacing := by
  have entries : (Json.writeEntries? spacing
      (members.map fun member => (Value.string member.1, member.2))).isSome = true := by
    induction members with
    | nil => rfl
    | cons member rest ih =>
      obtain ⟨own, others⟩ := List.forall_mem_cons.mp each
      exact Json.write_entries_cons_some own (ih others)
  rw [Value.IsWritten, record, Json.write?, Option.isSome_map]
  exact entries

theorem written_table {α : Type} (write : α → Value) {table : Table α}
    (each : ∀ entry ∈ table, (write entry.2).IsWritten spacing) :
    (record (table.map fun (name, a) => (name, write a))).IsWritten spacing :=
  written_record fun member listed => by
    obtain ⟨entry, present, rfl⟩ := List.mem_map.mp listed
    exact each entry present

theorem written_text_list (texts : List String) : (textList texts).IsWritten spacing :=
  written_items fun _ _ => rfl

theorem written_text_table (table : Table String) : (textTable table).IsWritten spacing :=
  written_table _ fun _ _ => rfl

theorem written_name_or_pair (entry : String × Option String) : (nameOrPair entry).IsWritten spacing := by
  obtain ⟨name, _ | other⟩ := entry
  · rfl
  · exact written_text_list _

theorem written_rest (m : RestMapping) : (restValue m).IsWritten spacing := by
  apply written_record
  simp only [List.forall_mem_cons]
  refine ⟨?_, written_items fun _ _ => written_text_list _, rfl, rfl, written_text_list _,
    written_text_list _, List.forall_mem_nil _⟩
  cases m.bodyVariable <;> rfl

theorem written_annotation {a : Annotation} (short : a.IsShort) : (annotationValue a).IsWritten spacing := by
  have pair : ∀ {kind : String} {value : Value}, value.IsWritten spacing →
      (record [("type", .string kind), ("value", value)]).IsWritten spacing := fun own =>
    written_record (List.forall_mem_cons.mpr ⟨rfl, List.forall_mem_cons.mpr ⟨own, List.forall_mem_nil _⟩⟩)
  cases a with
  | statusCode code =>
    refine pair ?_
    have fits : exceedsDigitLimit (digitsOf code.natAbs).length = false := short
    simp [Value.IsWritten, Json.write?, Json.intText?, fits]
  | rest mapping => exact pair (written_rest mapping)
  | description | argument | throws | hidden => exact pair rfl

theorem written_description (type : TypeDescription) : (descriptionValue type).IsWritten spacing := by
  cases type with
  | text type => rfl
  | enum members => exact written_items fun entry _ => written_name_or_pair entry
  | struct fields => exact written_text_table fields

theorem written_signature (s : Signature) : (signatureValue s).IsWritten spacing :=
  written_record (List.forall_mem_cons.mpr ⟨written_text_table s.args,
    List.forall_mem_cons.mpr ⟨rfl, List.forall_mem_nil _⟩⟩)

theorem text_of_short {d : Document} (short : ∀ entry ∈ d.notes, ∀ a ∈ entry.2, a.IsShort) :
    ∃ text, d.text? = some text := by
  have notes : ∀ entry ∈ d.notes, (Value.list (entry.2.map annotationValue)).IsWritten .compact :=
    fun entry listed => written_items fun a noted => written_annotation (short entry listed a noted)
  refine Option.isSome_iff_exists.mp (written_record ?_)
  simp only [List.forall_mem_cons]
  refine ⟨?_, ?_, ?_, ?_, List.forall_mem_nil _⟩
  · exact written_table (fun items : List Annotation => .list (items.map annotationValue)) notes
  · exact written_items fun entry _ => written_name_or_pair entry
  · exact written_table _ fun entry _ => written_signature entry.2
  · exact written_table _ fun entry _ => written_description entry.2

end Document

end Texts

namespace Schema

variable {final : Schema}

theorem notes_of_document {d : Document} (written : final.document = .ok d) :
    d.notes = final.placedNotes.foldl (fun table (place, a) => Table.append table place a) [] := by
  rw [document, type_entries_eq (document_iff.mp ⟨d, written⟩)] at written
  cases written
  rfl

theorem exists_artifact {files : FileTree} {file source : String} {tree : SchemaTree}
    (parsed : SchemaTree.parse files file source = .ok tree) (accepted : (ofTree tree).analyse = .ok final) :
    ∃ text, Artifact.write final = .ok text := by
  obtain ⟨named, expanded, stages⟩ := accepted_of_analyse accepted
  have treelike := treelike_of_tree tree
  have short := stages.short_notes treelike.grounded (short_of_tree (SchemaTree.short_of_parse parsed))
  obtain ⟨d, document⟩ := document_iff.mpr (stages.collected_names treelike)
  obtain ⟨text, written⟩ := Document.text_of_short (d := d)
    (notes_of_document document ▸ Table.forall_foldl_append (short_placed short))
  exact ⟨text, by rw [Artifact.write, document]; dsimp only; rw [written]⟩

end Schema

end ApiSchema
