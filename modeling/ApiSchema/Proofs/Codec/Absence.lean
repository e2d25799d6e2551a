import ApiSchema.Proofs.Codec.Nulls

/-! A field that a value lacks is as good as one that is null, also in the data behind a tag. -/

namespace ApiSchema.Codec

abbrev Carrying := (value : Value) → (tag : String) → (data : Value) → Prop

/-- A value that is encoded has a tag among its data. -/
def GivenData : Carrying := fun value tag data =>
  ∃ entries, value = .mapping entries ∧
    Value.get? entries (textKey "tag") = some (.string tag) ∧
      data = .mapping (entries.filter fun (key, _) => !key.same (textKey "tag"))

/-- A value that is decoded has a tag in front of its data, or alone. -/
def ReceivedData : Carrying := fun value tag data => taggedData? (.string tag) value = some data

/-- A tag of members that have data. -/
structure HasData (members : List Value) (tag : String) : Prop where
  bare : .string tag ∉ members
  among : ∃ member ∈ members, ∃ type, memberPair member = .ok (.string tag, type)

/-- Values of a type that differ only in fields that one of them lacks and that are null in the
other. -/
inductive Agree (carries : Carrying) (table : TypeTable) : (type value other : Value) → Prop where
  | same {type value} : Agree carries table type value value
  | struct {fields entries others : List (Value × Value)}
    (each : ∀ key type, (key, type) ∈ fields → Agree carries table type
      ((Value.get? entries key).getD .null) ((Value.get? others key).getD .null)) :
    Agree carries table (.mapping fields) (.mapping entries) (.mapping others)
  | enum {members value other tag given lacking} (has : HasData members tag)
    (first : carries value tag given) (second : carries other tag lacking)
    (each : ∀ member ∈ members, ∀ type, memberPair member = .ok (.string tag, type) →
      Agree carries table type given lacking) : Agree carries table (.list members) value other
  | array {name inner} {items others : List Value}
    (peeled : TypeText.peel? name = some (.array, inner)) (long : items.length = others.length)
    (each : ∀ pair ∈ items.zip others, Agree carries table (.string inner) pair.1 pair.2) :
    Agree carries table (.string name) (.list items) (.list others)
  | optional {name inner value other} (peeled : TypeText.peel? name = some (.optional, inner))
    (present : Agree carries table (.string inner) value other) :
    Agree carries table (.string name) value other
  | entry {name type value other} (found : Value.get? table (.string name) = some type)
    (meant : Agree carries table type value other) : Agree carries table (.string name) value other

variable {w : Way} {table : TypeTable} {convert : Conversion} {path tag : String}
  {members : List Value} {type value other data lacking : Value} {carries : Carrying}

def AlikeBehind (convert : Conversion) (members : List Value) (tag : String) (data lacking : Value) :
    Prop := ∀ member ∈ members, ∀ type, memberPair member = .ok (.string tag, type) →
  ∀ place, convert place type data = convert place type lacking

/-- Values with a tag are converted by what they carry behind it. -/
structure Way.Unfolds (w : Way) (carries : Carrying) : Prop where
  present : ∀ {value tag data}, carries value tag data → value ≠ .null
  alike : ∀ {convert members value other tag data lacking} (path : String), Tagged members →
    HasData members tag → carries value tag data → carries other tag lacking →
      AlikeBehind convert members tag data lacking →
        w.tagged convert path members value = w.tagged convert path members other

theorem Way.unfolds_nothing (w : Way) : w.Unfolds fun _ _ _ => False :=
  ⟨False.elim, fun _ _ _ none => none.elim⟩

@[elab_as_elim]
theorem HasData.induction {motive : List Value → Prop} (has : HasData members tag)
    (here : ∀ member rest type, member ∈ members →
      memberPair member = .ok (.string tag, type) → motive (member :: rest))
    (later : ∀ member rest, member ∈ members →
      (∀ type, memberPair member ≠ .ok (.string tag, type)) → motive rest →
        motive (member :: rest)) : motive members := by
  obtain ⟨found, listed, type, pair⟩ := has.among
  clear has
  induction members with
  | nil => cases listed
  | cons member rest ih =>
    by_cases own : ∃ type, memberPair member = .ok (.string tag, type)
    · obtain ⟨type, pair⟩ := own
      exact here member rest type (List.mem_cons_self ..) pair
    · have front : found ≠ member := by
        rintro rfl
        exact own ⟨type, pair⟩
      refine later member rest (List.mem_cons_self ..) (not_exists.mp own) (ih ?_ ?_ ?_)
      · exact fun member rest type listed => here member rest type (List.mem_cons_of_mem _ listed)
      · exact fun member rest listed => later member rest (List.mem_cons_of_mem _ listed)
      · exact (List.mem_cons.mp listed).resolve_left front

theorem encode_members_congr {whole : Value} {given lacking : List (Value × Value)}
    (has : HasData members tag)
    (alike : AlikeBehind convert members tag (.mapping given) (.mapping lacking)) :
    encodeMembers convert path whole value (.string tag) given members =
      encodeMembers convert path whole other (.string tag) lacking members := by
  refine has.induction (fun member rest type listed pair => ?_) fun member rest _ unlike ih => ?_
  · unfold encodeMembers
    split
    · next hollow => cases hollow
    · next same =>
      cases same
      cases pair
    · next same =>
      cases same
      have own : (Value.string tag).same (.string tag) = true := Value.same_string_iff.mpr rfl
      rw [pair]
      simp only [bind, Except.bind, if_pos own, alike member listed type pair]
  · unfold encodeMembers
    split
    · next hollow => cases hollow
    · next same =>
      cases same
      rw [ih]
    · next same =>
      cases same
      cases own : memberPair member with
      | error e => rfl
      | ok both =>
        obtain ⟨label, inner⟩ := both
        have apart : ¬ label.same (.string tag) = true := by
          intro same
          rw [Value.same_string_iff.mp same] at own
          exact unlike inner own
        simp only [bind, Except.bind, if_neg apart, ih]

theorem encoding_unfolds [UrlNormaliser] : Way.encoding.Unfolds GivenData where
  present := by
    rintro _ _ _ ⟨_, rfl, _⟩
    simp
  alike := by
    rintro convert members _ _ tag _ _ path _ has ⟨entries, rfl, own, rfl⟩
      ⟨others, rfl, own', rfl⟩ alike
    change encodeTagged convert path members (.mapping entries) =
      encodeTagged convert path members (.mapping others)
    simp only [encodeTagged, own, own']
    exact encode_members_congr has alike

theorem received_cases (received : ReceivedData value tag data) :
    value = .string tag ∧ data = .mapping [] ∨ value = .list [.string tag, data] := by
  unfold ReceivedData taggedData? at received
  split at received
  · next alone =>
    cases received
    exact .inl ⟨Value.string_same_iff.mp alone, rfl⟩
  · split at received
    · split at received
      · next same =>
        cases received
        exact .inr (by rw [Value.same_string_iff.mp same])
      · cases received
    · cases received

theorem received_apart {label : String} (received : ReceivedData value tag data)
    (apart : label ≠ tag) : taggedData? (.string label) value = none := by
  have unlike : (Value.string label).same (.string tag) = false := by
    simpa [Value.same] using apart
  have unlike' : (Value.string tag).same (.string label) = false := by
    simpa [Value.same] using Ne.symm apart
  rcases received_cases received with ⟨rfl, _⟩ | rfl
  · simp [taggedData?, unlike]
  · simp [taggedData?, unlike', Value.string_not_same_list]

theorem received_not_same {text : String} (received : ReceivedData value tag data)
    (apart : text ≠ tag) : value.same (.string text) = false := by
  rw [← Bool.not_eq_true, Value.same_string_iff]
  rintro rfl
  rcases received_cases received with ⟨same, _⟩ | same
  · exact apart (Value.string.inj same)
  · cases same

theorem decode_members_congr {whole : Value} (tagged : Tagged members) (has : HasData members tag)
    (received : ReceivedData value tag data) (received' : ReceivedData other tag lacking)
    (alike : AlikeBehind convert members tag data lacking) :
    decodeMembers convert path whole value members =
      decodeMembers convert path whole other members := by
  refine has.induction (fun member rest type listed pair => ?_)
    fun member rest listed unlike ih => ?_
  · unfold decodeMembers
    split
    · next hollow => cases hollow
    · next same =>
      cases same
      cases pair
    · next same =>
      cases same
      rw [pair]
      simp only [bind, Except.bind]
      rw [received, received']
      simp only [alike member listed type pair]
  · unfold decodeMembers
    split
    · next hollow => cases hollow
    · next text others same =>
      cases same
      have apart : text ≠ tag := fun same => has.bare (same ▸ listed)
      rw [received_not_same received apart, received_not_same received' apart, ih]
    · next same =>
      cases same
      cases own : memberPair member with
      | error e => rfl
      | ok both =>
        obtain ⟨label, inner⟩ := both
        have text := tagged member listed label inner own
        cases label with
        | string label =>
          have apart : label ≠ tag := fun same => unlike inner (same ▸ own)
          simp only [bind, Except.bind]
          rw [received_apart received apart, received_apart received' apart]
          exact ih
        | _ => cases text

theorem decoding_unfolds [UrlNormaliser] : Way.decoding.Unfolds ReceivedData where
  present received := by
    rcases received_cases received with ⟨rfl, _⟩ | rfl <;> simp
  alike _ tagged has received received' alike :=
    decode_members_congr tagged has received received' alike

theorem Agree.null (unfolds : w.Unfolds carries) (agree : Agree carries table type value other) :
    value = .null ↔ other = .null := by
  induction agree with
  | same => rfl
  | struct | array => simp
  | enum _ first second =>
    exact iff_of_false (unfolds.present first) (unfolds.present second)
  | optional _ _ ih | entry _ _ ih => exact ih

theorem convert_fields_congr (path : String) {entries others fields : List (Value × Value)}
    (each : ∀ key type, (key, type) ∈ fields → ∀ place,
      convert place type ((Value.get? entries key).getD .null) =
        convert place type ((Value.get? others key).getD .null)) :
    convertFields convert path entries fields = convertFields convert path others fields := by
  induction fields with
  | nil => rfl
  | cons field rest ih =>
    obtain ⟨key, type⟩ := field
    have later := ih fun key type member => each key type (List.mem_cons_of_mem _ member)
    simp only [convertFields, each key type (List.mem_cons_self ..), later]

theorem convert_items_congr (path : String) (index : Nat) {items others : List Value}
    (long : items.length = others.length)
    (each : ∀ pair ∈ items.zip others, ∀ place,
      convert place type pair.1 = convert place type pair.2) :
    convertItems convert path type index items = convertItems convert path type index others := by
  induction items generalizing others index with
  | nil =>
    cases List.length_eq_zero_iff.mp long.symm
    rfl
  | cons item rest ih =>
    cases others with
    | nil => cases long
    | cons other others =>
      have first := each (item, other) (List.mem_cons_self ..)
      have later : convertItems convert path type (index + 1) rest =
          convertItems convert path type (index + 1) others :=
        ih (index + 1) (Nat.succ.inj long) fun pair member =>
          each pair (List.mem_cons_of_mem _ member)
      simp only [convertItems, first, later]

theorem HasData.mixed (has : HasData members tag) : members.all Value.isString = false := by
  obtain ⟨member, listed, type, pair⟩ := has.among
  refine List.all_eq_false.mpr ⟨member, listed, ?_⟩
  cases member with
  | string => cases pair
  | _ => simp [Value.isString]

theorem converted_of_agree (inner : w.Local) (unfolds : w.Unfolds carries)
    (described : Described table) (plain : PlainNames table) (description : Description type)
    (agree : Agree carries table type value other) (path : String) :
    Codec.convert w table path type value = Codec.convert w table path type other := by
  have unfold {type : Value} (description : Description type) (path : String) (value : Value) :
      Codec.convert w table path type value =
        convertStep w table (Codec.convert w table) path type value :=
    convert_eq inner described description
  induction agree generalizing path with
  | same => rfl
  | @struct fields entries others each ih =>
    have inside : ∀ {key type}, (key, type) ∈ fields → Description type := by
      cases description with
      | struct each => exact each _ _
    have same := convert_fields_congr path fun key type member place =>
      ih key type member (inside member) place
    rw [unfold description, unfold description]
    simp only [convertStep, same]
    rfl
  | @enum members value other tag given lacking has first second each ih =>
    have inside : ∀ {member type}, member ∈ members → memberPair member = .ok (.string tag, type) →
        Description type := by
      cases description with
      | enum _ each => exact fun listed pair => each _ listed _ _ pair
    have same := unfolds.alike path description.tagged has first second
      fun member listed type pair place => ih member listed type pair (inside listed pair) place
    rw [unfold description, unfold description]
    simp only [convertStep, has.mixed, same]
    rfl
  | @array name text items others peeled long each ih =>
    have same := convert_items_congr path 0 long fun pair member place =>
      ih pair member (.name text) place
    rw [unfold description, unfold description]
    simp only [convertStep, convertNamed, peeled, convertSuffix, same]
    rfl
  | @optional name text value other peeled present ih =>
    by_cases null : value = .null
    · rw [null, (present.null unfolds).mp null]
    · have null' : other ≠ .null := mt (present.null unfolds).mpr null
      rw [unfold description, unfold description]
      simp only [convertStep, check_null_of_ne null, check_null_of_ne null', convertNamed, peeled,
        convertSuffix, Value.is_null_of_ne null, Value.is_null_of_ne null', ih (.name text)]
  | @entry name type value other found meant ih =>
    by_cases null : value = .null
    · rw [null, (meant.null unfolds).mp null]
    · have null' : other ≠ .null := mt (meant.null unfolds).mpr null
      have typed := described _ _ found
      have proper : type ≠ .null := by
        rintro rfl
        cases typed
      rw [unfold description, unfold description, convert_entry (plain found) found proper,
        convert_entry (plain found) found proper, check_null_of_ne null, check_null_of_ne null']
      exact ih typed path

theorem agree_of_missing {entries : List (Value × Value)} (key : Value)
    (missing : Value.get? entries key = none) (fields : List (Value × Value)) :
    Agree carries table (.mapping fields) (.mapping entries)
      (.mapping (Value.insert entries key .null)) := by
  have unknown : entries.find? (fun entry => entry.1.same key) = none :=
    Option.map_eq_none_iff.mp missing
  have added : Value.insert entries key .null = entries ++ [(key, .null)] :=
    if_neg (by simpa using unknown)
  refine .struct fun other type _ => ?_
  have same : (Value.get? entries other).getD .null =
      (Value.get? (entries ++ [(key, .null)]) other).getD .null := by
    simp only [Value.get?, List.find?_append]
    cases entries.find? fun entry => entry.1.same other with
    | some entry => rfl
    | none => cases apart : key.same other <;> simp [apart]
  rw [added, same]
  exact .same

/-- Null is converted to itself by the types that it is a value of and refused by all others, and it
does not matter whether a field is missing or null. -/
theorem nulls_checked [UrlNormaliser] (plain : PlainNames table) :
    (∀ path type, Nullable table type →
      encode table path (.string type) .null = .ok .null ∧
        decode table path (.string type) .null = .ok .null) ∧
    (∀ path type, ¬ Nullable table type →
      encode table path (.string type) .null = .error (.error (.null path)) ∧
        decode table path (.string type) .null = .error (.error (.null path))) ∧
    (Described table → ∀ path type value other, Description type →
      (Agree GivenData table type value other →
          encode table path type value = encode table path type other) ∧
        (Agree ReceivedData table type value other →
          decode table path type value = decode table path type other)) := by
  refine ⟨fun path type null => ?_, fun path type null => ?_,
    fun described path type value other description => ⟨fun agree => ?_, fun agree => ?_⟩⟩
  · exact ⟨null_converted (fun _ _ => rfl) plain null, null_converted (fun _ _ => rfl) plain null⟩
  · exact ⟨null_refused plain null, null_refused plain null⟩
  · exact converted_of_agree encoding_local encoding_unfolds described plain description agree path
  · exact converted_of_agree decoding_local decoding_unfolds described plain description agree path

def notes : TypeTable :=
  [(.string "Note", .mapping [(.string "text", .string "string"), (.string "about", .string "Other")]),
    (.string "Sheet", .list [.string "blank", .list [.string "signed", .string "Note"]]),
    (.string "Other", .string "Another"), (.string "Another", .string "Note?"),
    (.string "Round", .string "Ring"), (.string "Ring", .string "Round")]

theorem notes_checked : ∃ _ : UrlNormaliser,
    (encode notes "note" (.string "Other") .null = .ok .null ∧
      decode notes "note" (.string "Other") .null = .ok .null) ∧
    (encode notes "note" (.string "Round") .null = .error (.error (.null "note")) ∧
      decode notes "note" (.string "Round") .null = .error (.error (.null "note"))) ∧
    encode notes "sheet" (.string "Sheet")
        (.mapping [(.string "tag", .string "signed"), (.string "text", .string "first")]) =
      encode notes "sheet" (.string "Sheet") (.mapping [(.string "tag", .string "signed"),
        (.string "text", .string "first"), (.string "about", .null)]) ∧
    decode notes "note" (.string "Note") (.mapping [(.string "text", .string "first")]) =
      decode notes "note" (.string "Note")
        (.mapping [(.string "text", .string "first"), (.string "about", .null)]) := by
  let urls : UrlNormaliser := .refusing
  have plain : PlainNames notes := by
    intro name type found
    have member := Value.mem_of_get?_string found
    simp only [notes, List.mem_cons, Prod.mk.injEq, Value.string.injEq, List.not_mem_nil,
      or_false] at member
    rcases member with ⟨rfl, _⟩ | ⟨rfl, _⟩ | ⟨rfl, _⟩ | ⟨rfl, _⟩ | ⟨rfl, _⟩ | ⟨rfl, _⟩ <;> decide
  have described : Described notes := by
    intro name type found
    have member := Value.mem_of_get?_string found
    simp only [notes, List.mem_cons, Prod.mk.injEq, Value.string.injEq, List.not_mem_nil,
      or_false] at member
    rcases member with ⟨_, rfl⟩ | ⟨_, rfl⟩ | ⟨_, rfl⟩ | ⟨_, rfl⟩ | ⟨_, rfl⟩ | ⟨_, rfl⟩
    · refine .struct fun key type member => ?_
      simp only [List.mem_cons, Prod.mk.injEq, List.not_mem_nil, or_false] at member
      rcases member with ⟨_, rfl⟩ | ⟨_, rfl⟩ <;> exact .name _
    · refine .enum ?_ ?_ <;>
      · intro member listed tag type pair
        simp only [List.mem_cons, List.not_mem_nil, or_false] at listed
        rcases listed with rfl | rfl <;> cases pair
        first | rfl | exact .name _
    all_goals exact .name _
  have nullable : Nullable notes "Other" := (admits_null_iff plain).mp (by decide)
  have circular : ¬ Nullable notes "Round" := mt (admits_null_iff plain).mpr (by decide)
  obtain ⟨taken, refused, agreed⟩ := nulls_checked plain
  refine ⟨urls, taken "note" "Other" nullable, refused "note" "Round" circular, ?_, ?_⟩
  · refine (agreed described "sheet" _ _ _ (.name "Sheet")).1 (.entry rfl ?_)
    refine .enum ⟨by simp, _, .tail _ (.head _), _, rfl⟩ ⟨_, rfl, rfl, rfl⟩ ⟨_, rfl, rfl, rfl⟩ ?_
    intro member listed type pair
    simp only [List.mem_cons, List.not_mem_nil, or_false] at listed
    rcases listed with rfl | rfl <;> cases pair
    exact .entry rfl (agree_of_missing (.string "about") rfl _)
  · refine (agreed described "note" _ _ _ (.name "Note")).2 (.entry rfl ?_)
    exact agree_of_missing (.string "about") rfl _

end ApiSchema.Codec
