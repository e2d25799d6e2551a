import ApiSchema.Document.Reader
import ApiSchema.Proofs.Json.RoundTrip
import ApiSchema.Proofs.Table
import ApiSchema.Proofs.Value.Parts

/-! Documents as text: what is stored is read back as it was. -/

namespace ApiSchema

def Annotation.IsStored : Annotation → Prop
  | .argument .. => False
  | .statusCode code => exceedsDigitLimit (digitsOf code.natAbs).length = false
  | _ => True

namespace Document

open Json (Legible)

/-- No name is repeated where it would be lost, and each annotation can be stored. -/
structure Storable (d : Document) : Prop where
  types : d.types.keys.Nodup
  fields : ∀ name fields, (name, .struct fields) ∈ d.types → (Table.keys fields).Nodup
  operations : d.operations.keys.Nodup
  args : ∀ entry ∈ d.operations, entry.2.args.keys.Nodup
  notes : d.notes.keys.Nodup
  stored : ∀ entry ∈ d.notes, ∀ a ∈ entry.2, a.IsStored

section Reading

variable {α β : Type}

theorem map_read {read : β → Option α} {write : α → β} {items : List α}
    (each : ∀ a ∈ items, read (write a) = some a) : (items.map write).mapM read = some items := by
  induction items with
  | nil => rfl
  | cons a rest ih =>
    rw [List.map_cons, List.mapM_cons, each a (List.mem_cons_self ..),
      ih fun b member => each b (List.mem_cons_of_mem _ member)]
    rfl

variable {read : Value → Option α}

theorem read_items {write : α → Value} {items : List α} (each : ∀ a ∈ items, read (write a) = some a) :
    readItems? read (.list (items.map write)) = some items :=
  map_read each

theorem read_table (write : α → Value) {table : Table α} (distinct : table.keys.Nodup)
    (each : ∀ entry ∈ table, read (write entry.2) = some entry.2) :
    readTable? read (record (table.map fun (name, a) => (name, write a))) = some table := by
  have whole := Table.ofEntries_of_nodup distinct
  unfold readTable? record
  simp only [List.map_map]
  rw [map_read]
  · exact congrArg some whole
  · intro entry member
    dsimp only [Function.comp]
    rw [each entry member]
    rfl

end Reading

theorem read_text_list (texts : List String) : readItems? readText? (textList texts) = some texts :=
  read_items fun _ _ => rfl

theorem read_text_table {table : Table String} (distinct : table.keys.Nodup) :
    readTable? readText? (textTable table) = some table :=
  read_table .string distinct fun _ _ => rfl

theorem read_name_or_pair (entry : String × Option String) :
    readNameOrPair? (nameOrPair entry) = some entry := by
  obtain ⟨name, _ | other⟩ := entry <;> rfl

theorem read_headers (headers : Table String) :
    readItems? readPair? (.list (headers.map fun (header, argument) => textList [header, argument])) =
      some headers :=
  read_items fun _ _ => rfl

theorem read_optional_text (text : Option String) :
    readOptionalText? ((text.map .string).getD .null) = some text := by
  cases text <;> rfl

theorem read_rest (m : RestMapping) : readRest? (restValue m) = some m := by
  have members : readMembers? [["bodyVariable", "body_variable"], ["headers"], ["method"], ["path"],
      ["pathVariables", "path_variables"], ["queryVariables", "query_variables"]] (restValue m) =
        some [some ((m.bodyVariable.map .string).getD .null),
          some (.list (m.headers.map fun (header, argument) => textList [header, argument])),
          some (.string m.method), some (.string m.path), some (textList m.pathVariables),
          some (textList m.queryVariables)] := rfl
  unfold readRest?
  rw [members]
  simp [read_headers, read_optional_text, read_text_list, readText?]

theorem read_annotation {a : Annotation} (stored : a.IsStored) :
    readAnnotation? (annotationValue a) = some a := by
  cases a with
  | argument => cases stored
  | rest mapping =>
    have members : readMembers? [["type"], ["value"]] (annotationValue (.rest mapping)) =
        some [some (.string "rest"), some (restValue mapping)] := rfl
    have kind : (annotationValue (.rest mapping)).field? "type" = some (.string "rest") := rfl
    unfold readAnnotation?
    rw [members, kind]
    simp [read_rest]
  | _ => rfl

theorem read_signature {s : Signature} (distinct : s.args.keys.Nodup) :
    readSignature? (signatureValue s) = some s := by
  have args := read_text_table distinct
  have members : readMembers? [["args"], ["ret"]] (signatureValue s) =
      some [some (textTable s.args), some (.string s.returns)] := by
    rfl
  unfold readSignature?
  rw [members]
  simp [args, readText?]

theorem read_description {type : TypeDescription}
    (distinct : ∀ fields, type = .struct fields → (Table.keys fields).Nodup) :
    readDescription? (descriptionValue type) = some type := by
  cases type with
  | text type => rfl
  | enum members =>
    have read : readItems? readNameOrPair? (.list (members.map nameOrPair)) = some members :=
      read_items fun entry _ => read_name_or_pair entry
    simpa [descriptionValue, readDescription?, readText?] using read
  | struct fields =>
    have read := read_text_table (distinct fields rfl)
    exact congrArg (Option.map TypeDescription.struct) read

namespace Storable

variable {d : Document}

theorem of_value (storable : d.Storable) : ofValue? d.toValue = some d := by
  have members : readMembers? [["annotations"], ["errors"], ["functionTable", "function_table"],
      ["typeTable", "type_table"]] d.toValue =
        some [some (record (d.notes.map fun entry =>
            (entry.1, .list (entry.2.map annotationValue)))),
          some (.list (d.errors.map nameOrPair)),
          some (record (d.operations.map fun entry => (entry.1, signatureValue entry.2))),
          some d.typeTable] := rfl
  have notes : readTable? (readItems? readAnnotation?) (record (d.notes.map fun entry =>
      (entry.1, .list (entry.2.map annotationValue)))) = some d.notes :=
    read_table (fun notes => .list (notes.map annotationValue)) storable.notes fun entry member =>
      read_items fun a listed => read_annotation (storable.stored entry member a listed)
  have errors : readItems? readNameOrPair? (.list (d.errors.map nameOrPair)) = some d.errors :=
    read_items fun entry _ => read_name_or_pair entry
  have operations : readTable? readSignature? (record (d.operations.map fun entry =>
      (entry.1, signatureValue entry.2))) = some d.operations :=
    read_table signatureValue storable.operations fun entry member =>
      read_signature (storable.args entry member)
  have types : readTable? readDescription? d.typeTable = some d.types :=
    read_table descriptionValue storable.types fun entry member =>
      read_description fun fields same => storable.fields entry.1 fields (same ▸ member)
  unfold ofValue?
  rw [members]
  simp [readOrEmpty?, notes, errors, operations, types]

end Storable

theorem legible_record {members : List (String × Value)} (distinct : (Table.keys members).Nodup)
    (each : ∀ member ∈ members, Legible member.2) : Legible (record members) :=
  .mapping distinct each

theorem legible_table {α : Type} (write : α → Value) {table : Table α}
    (distinct : table.keys.Nodup) (each : ∀ entry ∈ table, Legible (write entry.2)) :
    Legible (record (table.map fun (name, a) => (name, write a))) := by
  apply legible_record
  · simpa [Table.keys, Function.comp_def] using distinct
  · intro member listed
    obtain ⟨entry, present, rfl⟩ := List.mem_map.mp listed
    exact each entry present

theorem legible_items {α : Type} {write : α → Value} {items : List α}
    (each : ∀ a ∈ items, Legible (write a)) : Legible (.list (items.map write)) := by
  apply Legible.list
  intro item listed
  obtain ⟨a, present, rfl⟩ := List.mem_map.mp listed
  exact each a present

theorem legible_text_list (texts : List String) : Legible (textList texts) :=
  legible_items fun _ _ => .string

theorem legible_text_table {table : Table String} (distinct : table.keys.Nodup) :
    Legible (textTable table) :=
  legible_table .string distinct fun _ _ => .string

theorem legible_name_or_pair (entry : String × Option String) : Legible (nameOrPair entry) := by
  obtain ⟨name, _ | other⟩ := entry
  · exact .string
  · exact legible_text_list _

theorem legible_rest (m : RestMapping) : Legible (restValue m) := by
  apply legible_record (by simp [Table.keys])
  simp only [List.forall_mem_cons]
  refine ⟨?_, legible_items fun _ _ => legible_text_list _, .string, .string, legible_text_list _,
    legible_text_list _, List.forall_mem_nil _⟩
  cases m.bodyVariable
  · exact .null
  · exact .string

theorem legible_annotation {a : Annotation} (stored : a.IsStored) : Legible (annotationValue a) := by
  have pair : ∀ {kind : String} {value : Value}, Legible value →
      Legible (record [("type", .string kind), ("value", value)]) := by
    intro kind value legible
    apply legible_record (by simp [Table.keys])
    simp only [List.forall_mem_cons]
    exact ⟨.string, legible, List.forall_mem_nil _⟩
  cases a with
  | description text => exact pair .string
  | argument => cases stored
  | throws error => exact pair .string
  | hidden => exact pair .null
  | statusCode code => exact pair (.int stored)
  | rest mapping => exact pair (legible_rest mapping)

theorem legible_signature {s : Signature} (distinct : s.args.keys.Nodup) :
    Legible (signatureValue s) := by
  apply legible_record (by simp [Table.keys])
  simp only [List.forall_mem_cons]
  exact ⟨legible_text_table distinct, .string, List.forall_mem_nil _⟩

theorem legible_description {type : TypeDescription}
    (distinct : ∀ fields, type = .struct fields → (Table.keys fields).Nodup) :
    Legible (descriptionValue type) := by
  cases type with
  | text type => exact .string
  | enum members => exact legible_items fun entry _ => legible_name_or_pair entry
  | struct fields => exact legible_text_table (distinct fields rfl)

namespace Storable

variable {d : Document}

theorem legible (storable : d.Storable) : Legible d.toValue := by
  apply legible_record (by simp [Table.keys])
  simp only [List.forall_mem_cons]
  refine ⟨?_, ?_, ?_, ?_, List.forall_mem_nil _⟩
  · exact legible_table (fun notes => .list (notes.map annotationValue)) storable.notes fun entry member =>
      legible_items fun a listed => legible_annotation (storable.stored entry member a listed)
  · exact legible_items fun entry _ => legible_name_or_pair entry
  · exact legible_table signatureValue storable.operations fun entry member =>
      legible_signature (storable.args entry member)
  · exact legible_table descriptionValue storable.types fun entry member =>
      legible_description fun fields same => storable.fields entry.1 fields (same ▸ member)

theorem of_text (storable : d.Storable) : ∃ text, d.text? = some text ∧ ofText? text = some d := by
  obtain ⟨text, written, read⟩ := Json.read_write Json.Spacing.proper_compact storable.legible
  refine ⟨text, written, ?_⟩
  rw [ofText?, read]
  exact storable.of_value

end Storable

end Document

end ApiSchema
