import ApiSchema.Proofs.Codec.Nulls

/-! The text of a type is read back as the type, and a conversion by the text takes its suffixes off in
the order in which they nest. -/

namespace ApiSchema

/-- A primitive type, or a reference whose name is not that of a primitive type and has no suffix. -/
def TypeBase.Referable : TypeBase → Prop
  | .primitive _ => True
  | .reference name _ => (∀ kind : Primitive, kind.name ≠ name) ∧
      ∀ (inner : String) (suffix : Suffix), name ≠ inner ++ suffix.text
  | .struct _ | .enum _ => False

def TypeUse.unplaced : TypeUse → TypeUse
  | ⟨suffixes, .reference name _⟩ => ⟨suffixes, .reference name {}⟩
  | t => t

namespace TypeText

theorem peel?_eq_none {name : String} :
    peel? name = none ↔ ∀ (inner : String) (suffix : Suffix), name ≠ inner ++ suffix.text := by
  constructor
  · rintro whole inner suffix rfl
    rw [peel?_append] at whole
    cases whole
  · intro whole
    cases peeled : peel? name with
    | none => rfl
    | some parts => exact absurd (eq_of_peel? peeled) (whole parts.2 parts.1)

theorem read_type_name (s : Schema) {t : TypeUse} (referable : t.base.Referable) :
    read (s.typeName t) = t.unplaced := by
  obtain ⟨suffixes, base⟩ := t
  induction suffixes with
  | nil =>
    cases base with
    | primitive kind =>
      rw [Schema.type_name_base, Schema.baseName, read_of_peel? (peel?_primitive kind), base_of_primitive]
      rfl
    | reference name location =>
      rw [Schema.type_name_base, Schema.baseName, read_of_peel? (peel?_eq_none.mpr referable.2),
        base_of_other referable.1]
      rfl
    | struct | enum => exact referable.elim
  | cons suffix rest ih =>
    rw [Schema.type_name_cons, read_append, ih referable]
    cases base <;> rfl

end TypeText

namespace Codec

abbrev Treatment := (path : String) → (value : Value) → Result Value

namespace Treatment

def optional (inner : Treatment) : Treatment := fun path value =>
  if value.isNull then .ok .null else inner path value

/-- All items are treated alike, each at its own path. -/
def array (name : String) (item : Treatment) : Treatment := fun path value =>
  match value with
  | .null => .error (.error (.null path))
  | .list items | .tuple items => do
    return .list (← items.zipIdx.mapM fun (value, i) => item (path ++ "[" ++ i.repr ++ "]") value)
  | _ => mismatch path name value

def primitive (w : Way) (kind : Primitive) : Treatment := fun path value =>
  if value.isNull then if kind = .void then .ok .null else .error (.error (.null path))
  else w.scalar path kind.name (scalarOf kind) value

/-- A present value of a named type is treated as the entry of the name says. -/
def named (w : Way) (table : TypeTable) (name : String) : Treatment := fun path value =>
  if value.isNull then if admitsNull table name then .ok .null else .error (.error (.null path))
  else
    match Value.get? table (.string name) with
    | some type => convert w table path type value
    | none => .error (.error (.unknownType path name))

end Treatment

/-- What a type of references and primitives prescribes for its values, from its outermost suffix inwards. -/
def prescribed (s : Schema) (w : Way) (table : TypeTable) : List Suffix → TypeBase → Treatment
  | .optional :: rest, base => .optional (prescribed s w table rest base)
  | .array :: rest, base => .array (s.typeName ⟨.array :: rest, base⟩) (prescribed s w table rest base)
  | [], .primitive kind => .primitive w kind
  | [], base => .named w table (s.baseName base)

variable {s : Schema} {w : Way} {table : TypeTable} {path name : String} {value : Value}

theorem convert_items_eq (convert : Conversion) (path : String) (type : Value) (index : Nat) (items : List Value) :
    convertItems convert path type index items = (items.zipIdx index).mapM fun (value, i) =>
      convert (path ++ "[" ++ i.repr ++ "]") type value := by
  induction items generalizing index with
  | nil => rfl
  | cons item rest ih => simp only [convertItems, List.zipIdx_cons, List.mapM_cons, ih]

theorem not_nullable (missing : Value.get? table (.string name) = none) (required : isOptionalText name = false)
    (present : name ≠ "void") : ¬ Nullable table name := by
  rintro ⟨last, leads, null⟩
  rcases leads.cases_head with rfl | ⟨next, step, _⟩
  · rcases null with optional | void
    · rw [required] at optional
      cases optional
    · exact present void
  · rw [Alias, missing] at step
    cases step

theorem scalar_of_other (other : ∀ kind : Primitive, kind.name ≠ name) (unlisted : name ≠ "phone") :
    Scalar.ofName? name = none := by
  cases found : Scalar.ofName? name with
  | none => rfl
  | some scalar =>
    obtain ⟨before, after, same, _⟩ := List.lookup_eq_some_iff.mp found
    have member : (name, scalar) ∈ scalarNames := by
      rw [same]
      exact List.mem_append_right _ (List.mem_cons_self ..)
    have listed : ∀ entry ∈ scalarNames, entry.1 = "phone" ∨ ∃ kind ∈ Primitive.all, kind.name = entry.1 := by
      decide
    rcases listed _ member with same | ⟨kind, _, same⟩
    · exact absurd same unlisted
    · exact absurd same (other kind)

section Treatments

variable (plain : PlainNames table)

include plain

theorem convert_primitive_name (keeps : ∀ path name, w.scalar path name .void .null = .ok .null)
    (kind : Primitive) : convert w table path (.string kind.name) value = Treatment.primitive w kind path value := by
  by_cases null : value = .null
  · by_cases void : kind = .void
    · rw [null, void]
      exact null_converted keeps plain ⟨_, .refl, .inr rfl⟩
    · have missing := plain.no_entry_scalar (scalar_of_primitive kind)
      have required : isOptionalText kind.name = false := by cases kind <;> decide
      have present : kind.name ≠ "void" := fun same => void (Primitive.name_inj same)
      rw [null, null_refused plain (not_nullable missing required present)]
      exact (if_neg void).symm
  · rw [convert_present kind null, Treatment.primitive, Value.is_null_of_ne null]
    rfl

variable (inner : w.Local) (described : Described table)

include inner described

theorem convert_optional (text : String) :
    convert w table path (.string (text ++ Suffix.optional.text)) value =
      Treatment.optional (fun path => convert w table path (.string text)) path value := by
  have admits := admits_null_optional plain (TypeText.peel?_append text .optional)
  have checked : checkNull table path (.string (text ++ Suffix.optional.text)) value = .ok () := by
    by_cases null : value = .null
    · rw [null, check_null_null.mpr admits]
    · exact check_null_of_ne null
  rw [convert_eq inner described (.name _), convert_suffix, checked]
  rfl

theorem convert_array (text : String) :
    convert w table path (.string (text ++ Suffix.array.text)) value =
      Treatment.array (text ++ Suffix.array.text) (fun path => convert w table path (.string text)) path value := by
  by_cases null : value = .null
  · have peeled := TypeText.peel?_append text .array
    have required : isOptionalText (text ++ Suffix.array.text) = false := by
      simp [isOptionalText, Suffix.text, String.toList_append]
    have present : text ++ Suffix.array.text ≠ Primitive.void.name := by
      intro same
      rw [same, TypeText.peel?_primitive] at peeled
      cases peeled
    rw [null, null_refused plain (not_nullable (plain.no_entry_peeled peeled) required present)]
    rfl
  · rw [convert_eq inner described (.name _), convert_suffix, check_null_of_ne null]
    cases value with
    | null => exact absurd rfl null
    | list items | tuple items =>
      simp only [convertSuffix, convert_items_eq, Treatment.array]
      rfl
    | _ => rfl

theorem convert_name (keeps : ∀ path name, w.scalar path name .void .null = .ok .null)
    (whole : TypeText.peel? name = none) (other : Scalar.ofName? name = none) :
    convert w table path (.string name) value = Treatment.named w table name path value := by
  by_cases null : value = .null
  · subst null
    by_cases admits : admitsNull table name = true
    · rw [null_converted keeps plain ((admits_null_iff plain).mp admits)]
      exact (if_pos admits).symm
    · rw [null_refused plain (mt (admits_null_iff plain).mpr admits)]
      exact (if_neg admits).symm
  · rw [Treatment.named, Value.is_null_of_ne null, convert_eq inner described (.name _)]
    cases entry : Value.get? table (.string name) with
    | some type =>
      have proper : type ≠ .null := by
        rintro rfl
        cases described _ _ entry
      rw [convert_entry ⟨whole, other⟩ entry proper, check_null_of_ne null]
      rfl
    | none =>
      simp only [convertStep, check_null_of_ne null, convertNamed, whole, other, entry]
      rfl

theorem convert_type_name (keeps : ∀ path name, w.scalar path name .void .null = .ok .null) {t : TypeUse}
    (referable : t.base.Referable) (unlisted : ∀ location, t.base ≠ .reference "phone" location) :
    convert w table path (.string (s.typeName t)) value = prescribed s w table t.suffixes t.base path value := by
  obtain ⟨suffixes, base⟩ := t
  induction suffixes generalizing path value with
  | nil =>
    cases base with
    | primitive kind => exact convert_primitive_name plain keeps kind
    | reference name location =>
      have other : name ≠ "phone" := by
        rintro rfl
        exact unlisted location rfl
      exact convert_name plain inner described keeps (TypeText.peel?_eq_none.mpr referable.2)
        (scalar_of_other referable.1 other)
    | struct | enum => exact referable.elim
  | cons suffix rest ih =>
    have within : (fun path => convert w table path (.string (s.typeName ⟨rest, base⟩))) =
        prescribed s w table rest base := by
      funext path value
      exact ih referable unlisted
    cases suffix with
    | optional => rw [Schema.type_name_cons, convert_optional plain inner described, within, prescribed]
    | array =>
      rw [Schema.type_name_cons, convert_array plain inner described, within, prescribed,
        Schema.type_name_cons]

end Treatments

/-- Types of references and primitives are read from their names as they are, so that different types have
different names, and a conversion by the name of a type treats its values as the type prescribes. -/
theorem type_names_exact [UrlNormaliser] (s : Schema) :
    (∀ t : TypeUse, t.base.Referable → TypeText.read (s.typeName t) = t.unplaced) ∧
    (∀ t t' : TypeUse, t.base.Referable → t'.base.Referable → s.typeName t = s.typeName t' →
      t.unplaced = t'.unplaced) ∧
    ∀ table : TypeTable, Described table → PlainNames table →
      (∀ name, admitsNull table name = true ↔ Nullable table name) ∧
      ∀ t : TypeUse, t.base.Referable → (∀ location, t.base ≠ .reference "phone" location) →
        ∀ path value,
          encode table path (.string (s.typeName t)) value =
            prescribed s .encoding table t.suffixes t.base path value ∧
          decode table path (.string (s.typeName t)) value =
            prescribed s .decoding table t.suffixes t.base path value := by
  refine ⟨fun t => TypeText.read_type_name s, fun t t' referable referable' same => ?_,
    fun table described plain => ⟨fun name => admits_null_iff plain, fun t referable unlisted path value => ?_⟩⟩
  · rw [← TypeText.read_type_name s referable, same, TypeText.read_type_name s referable']
  · exact ⟨convert_type_name plain encoding_local described (fun _ _ => rfl) referable unlisted,
      convert_type_name plain decoding_local described (fun _ _ => rfl) referable unlisted⟩

def logs : TypeTable :=
  [(.string "Reading", .mapping [(.string "value", .string "int")]), (.string "Log", .string "Reading?[]")]

theorem logs_exact : ∃ _ : UrlNormaliser,
    TypeText.read "Log?[]" = ⟨[.array, .optional], .reference "Log" {}⟩ ∧
    decode logs "p" (.string "int?[]?[]") (.list [.null, .list [.int 1, .null]]) =
      .ok (.list [.null, .list [.int 1, .null]]) ∧
    decode logs "p" (.string "Log?[]") (.list [.null]) = .ok (.list [.null]) ∧
    decode logs "p" (.string "Log[]?") (.list [.null]) = .error (.error (.null "p[0]")) := by
  have described : Described logs := by
    intro name type found
    have member := Value.mem_of_get?_string found
    simp only [logs, List.mem_cons, Prod.mk.injEq, Value.string.injEq, List.not_mem_nil, or_false] at member
    rcases member with ⟨_, rfl⟩ | ⟨_, rfl⟩
    · refine .struct fun key type member => ?_
      cases List.mem_singleton.mp member
      exact .name _
    · exact .name _
  have plain : PlainNames logs := by
    intro name type found
    have member := Value.mem_of_get?_string found
    simp only [logs, List.mem_cons, Prod.mk.injEq, Value.string.injEq, List.not_mem_nil, or_false] at member
    rcases member with ⟨rfl, _⟩ | ⟨rfl, _⟩ <;> decide
  have log : (TypeBase.reference "Log" {}).Referable :=
    ⟨fun kind => by cases kind <;> decide, TypeText.peel?_eq_none.mp (by decide)⟩
  let urls : UrlNormaliser := .refusing
  obtain ⟨read, _, treated⟩ := type_names_exact {}
  have exact := (treated logs described plain).2
  have number := exact ⟨[.array, .optional, .array, .optional], .primitive .int⟩ trivial nofun
  have inner := exact ⟨[.array, .optional], .reference "Log" {}⟩ log (by simp)
  have outer := exact ⟨[.optional, .array], .reference "Log" {}⟩ log (by simp)
  refine ⟨urls, read ⟨[.array, .optional], .reference "Log" {}⟩ log, ?_, ?_, ?_⟩
  · exact (number "p" _).2.trans rfl
  · exact (inner "p" _).2.trans rfl
  · exact (outer "p" _).2.trans rfl

/-- A type may have the name of a scalar type that is not a primitive type, and a table may list a name
with a suffix; conversions take such texts for something else than what the type prescribes. -/
theorem type_names_misread : ∃ _ : UrlNormaliser,
    (TypeBase.reference "phone" {}).Referable ∧
      decode [(.string "phone", .string "int")] "p" (.string (Schema.typeName {} ⟨[], .reference "phone" {}⟩)) (.int 5) ≠
        prescribed {} .decoding [(.string "phone", .string "int")] [] (.reference "phone" {}) "p" (.int 5) ∧
      decode [(.string "int?", .string "int")] "p" (.string (Schema.typeName {} ⟨[.optional], .primitive .int⟩)) .null ≠
        prescribed {} .decoding [(.string "int?", .string "int")] [.optional] (.primitive .int) "p" .null := by
  let urls : UrlNormaliser := .refusing
  refine ⟨urls, ⟨fun kind => by cases kind <;> decide, TypeText.peel?_eq_none.mp (by decide)⟩, ?_, ?_⟩
  · intro same
    have refused : (decode [(.string "phone", .string "int")] "p" (.string "phone") (.int 5)).isOk = false := rfl
    rw [show decode [(.string "phone", .string "int")] "p" (.string "phone") (.int 5) = _ from same] at refused
    cases refused
  · intro same
    have refused : (decode [(.string "int?", .string "int")] "p" (.string "int?") .null).isOk = false := rfl
    rw [show decode [(.string "int?", .string "int")] "p" (.string "int?") .null = _ from same] at refused
    cases refused

end Codec

end ApiSchema
