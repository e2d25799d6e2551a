import ApiSchema.Proofs.Codec.Taking
import ApiSchema.Proofs.Codec.Sending
import ApiSchema.Proofs.Codec.Widening
import ApiSchema.Proofs.Compatibility.Comparing

/-! What is sent for a type, and received for one that it fits. It is understood unless a tag comes
with data that the receiver does not know of. -/

namespace ApiSchema

open Schema Codec

namespace Transfer

/-- Some member has data at the sender, and at the receiver the member of its text has none. -/
def Loses (x : Transfer) : Prop :=
  ∃ e i v w, x.sender.Known (.enum e) ∧ x.receiver.Known (.enum i) ∧
    v ∈ (x.sender.enum e).values ∧ w ∈ (x.receiver.enum i).values ∧ w.text = v.text ∧
      v.data.isSome = true ∧ w.data = none

structure Sendable (s : Schema) : Prop where
  moneyless : ¬ s.Known (.primitive .money)
  distinct : ∀ t, s.DistinctNames (s.struct t).fields

variable [urls : UrlNormaliser]

/-- A value is understood, or else misread because a member has lost its data. -/
def Understood (x : Transfer) (type : TypeUse) (value : Value) : Prop :=
  Taken x.receiver type value ∨ Misread x.receiver type value ∧ x.Loses

variable {x : Transfer} {met : List Meeting}

theorem taken_of_stands {s : Schema} {type subject : TypeUse} {received : Value}
    (stands : s.Stands type subject) (taken : Taken s subject received) : Taken s type received := by
  induction stands with
  | self => exact taken
  | reference defined _ ih => exact .reference defined (ih taken)

theorem taken_of_admits_null {s : Schema} {type : TypeUse} (resolved : s.Resolved)
    (known : s.Known type.base) (admits : s.admitsNull type = true) : Taken s type .null := by
  refine taken_of_stands (stands_subject resolved known).1 ?_
  unfold Schema.admitsNull TypeUse.isOptional at admits
  generalize s.subject type = subject at admits ⊢
  obtain ⟨suffixes, base⟩ := subject
  cases suffixes with
  | nil => simp at admits
  | cons suffix rest =>
    cases suffix with
    | optional => exact .null
    | array => simp at admits

theorem null_taken (stable : urls.Stable) (moneyless : ¬ x.sender.Known (.primitive .money)) {sent received : TypeUse}
    (fits : x.Fits met sent received) (known : x.sender.Known sent.base)
    (null : Sent x.sender sent .null) : Taken x.receiver received .null := by
  induction fits with
  | sentName defined _ ih =>
    cases null with
    | reference defined' behind =>
      rw [defined] at defined'
      cases defined'
      exact ih (known.reaches (.single (.reference defined))) behind
  | receivedName defined _ ih => exact .reference defined (ih known null)
  | admitted => exact .null
  | optional => exact .null
  | array => cases null
  | struct => cases null
  | enum => cases null
  | @primitive k l widens =>
    cases null with
    | primitive transmits =>
      exact .primitive
        (accepts_of_transmits stable widens (fun same => moneyless (same ▸ known)) transmits)
  | text => cases null

theorem field_understood (receiver : x.receiver.Navigable) {ids : List FieldId}
    (distinct : x.sender.DistinctNames ids) {item : FieldId → Value} {f : Field}
    (known : x.receiver.Known f.type.base) (fills : x.Fills met (ids.map x.sender.field) f)
    (each : ∀ id ∈ ids, x.Fits met (x.sender.field id).type f.type →
      x.Understood f.type (item id)) :
    x.Understood f.type ((Value.get?
      (ids.map fun id => (.string (x.sender.field id).name, item id)) (.string f.name)).getD .null) := by
  unfold Fills at fills
  cases found : lastField? (ids.map x.sender.field) f.name with
  | some field =>
    rw [found] at fills
    obtain ⟨listed, named⟩ := mem_of_last_field found
    obtain ⟨id, member, rfl⟩ := List.mem_map.mp listed
    rw [← named, Value.get?_map (fun id => (x.sender.field id).name) item distinct member]
    exact each id member fills
  | none =>
    rw [found] at fills
    have absent : ∀ id ∈ ids, (x.sender.field id).name ≠ f.name := by
      intro id member same
      have other := List.find?_eq_none.mp found (x.sender.field id)
        (List.mem_reverse.mpr (List.mem_map_of_mem member))
      simp [same] at other
    rw [Value.get?_map_none (fun id => (x.sender.field id).name) item absent]
    exact .inl (taken_of_admits_null receiver.resolved known fills)

theorem understood_cases {s : Schema} {ids : List FieldId} {value : FieldId → Value} {lost : Prop}
    (each : ∀ id ∈ ids, Taken s (s.field id).type (value id) ∨
      Misread s (s.field id).type (value id) ∧ lost) :
    (∀ id ∈ ids, Taken s (s.field id).type (value id)) ∨
      (∃ id ∈ ids, Misread s (s.field id).type (value id)) ∧ lost := by
  by_cases all : ∀ id ∈ ids, Taken s (s.field id).type (value id)
  · exact .inl all
  · obtain ⟨id, member, refused⟩ : ∃ id, id ∈ ids ∧ ¬ Taken s (s.field id).type (value id) := by
      simpa using all
    rcases each id member with taken | ⟨misread, lost⟩
    · exact absurd taken refused
    · exact .inr ⟨⟨id, member, misread⟩, lost⟩

/-- Whatever is sent is understood where it fits. -/
theorem understood (stable : urls.Stable) (closed : x.Closed met) (sender : Sendable x.sender)
    (receiver : x.receiver.Navigable) (n : Nat) :
    ∀ value : Value, value.size ≤ n → ∀ {sent received}, x.Fits met sent received →
      x.sender.Known sent.base → x.receiver.Known received.base → Sent x.sender sent value →
        x.Understood received value := by
  induction n with
  | zero =>
    intro value small
    have positive := value.size_pos
    omega
  | succ n smaller =>
    intro value small sent received fits known known' holds
    induction fits with
    | sentName defined _ ih =>
      cases holds with
      | reference defined' behind =>
        rw [defined] at defined'
        cases defined'
        exact ih (known.reaches (.single (.reference defined))) known' behind
    | receivedName defined _ ih =>
      rcases ih known (known'.reaches (.single (.reference defined))) holds with
        taken | ⟨misread, lost⟩
      · exact .inl (.reference defined taken)
      · exact .inr ⟨.reference defined misread, lost⟩
    | admitted _ ih =>
      rcases ih known known' holds with taken | ⟨misread, lost⟩
      · exact .inl (.optional taken)
      · exact .inr ⟨.optional misread, lost⟩
    | optional _ ih =>
      cases holds with
      | null => exact .inl .null
      | optional inner =>
        rcases ih known known' inner with taken | ⟨misread, lost⟩
        · exact .inl (.optional taken)
        · exact .inr ⟨.optional misread, lost⟩
    | @array rest base rest' base' fits _ =>
      cases holds with
      | @array _ _ items each =>
        have all : ∀ item ∈ items, x.Understood ⟨rest', base'⟩ item := by
          intro item member
          have inside := Value.size_of_item member
          rw [Value.size] at small
          exact smaller item (by omega) fits known known' (each item member)
        by_cases taken : ∀ item ∈ items, Taken x.receiver ⟨rest', base'⟩ item
        · exact .inl (.array taken)
        · obtain ⟨item, member, refused⟩ :
              ∃ item, item ∈ items ∧ ¬ Taken x.receiver ⟨rest', base'⟩ item := by simpa using taken
          rcases all item member with taken | ⟨misread, lost⟩
          · exact absurd taken refused
          · exact .inr ⟨.array member misread, lost⟩
    | @struct t u meets =>
      cases holds with
      | @struct _ item each =>
        have filled := closed _ _ meets
        have fields : ∀ id ∈ (x.receiver.struct u).fields,
            x.Understood (x.receiver.field id).type ((Value.get?
              ((x.sender.struct t).fields.map fun id => (.string (x.sender.field id).name, item id))
              (.string (x.receiver.field id).name)).getD .null) := by
          intro id member
          have behind := known'.reaches (.single (.field (.inr member)))
          refine field_understood receiver (sender.distinct t) behind
            (filled _ (List.mem_map_of_mem member)) fun own held fits => ?_
          have entry : (Value.string (x.sender.field own).name, item own) ∈
              (x.sender.struct t).fields.map fun id => (Value.string (x.sender.field id).name, item id) :=
            List.mem_map_of_mem (f := fun id => (Value.string (x.sender.field id).name, item id)) held
          have inside := Value.size_of_entry entry
          rw [Value.size] at small
          exact smaller (item own) (by omega) fits
            (known.reaches (.single (.field (.inr held)))) behind (each own held)
        rcases understood_cases fields with taken | ⟨⟨id, member, misread⟩, lost⟩
        · exact .inl (.struct taken)
        · exact .inr ⟨.struct member misread, lost⟩
    | @enum e i values =>
      cases holds with
      | @tag _ v member bare =>
        obtain ⟨w, found, meets⟩ := values v member
        obtain ⟨listed, same⟩ := mem_of_last_value found
        rw [← same]
        rw [bare] at meets
        cases data : w.data with
        | none => exact .inl (.tag listed data)
        | some u =>
          rw [data] at meets
          refine .inl (.tagAlone listed data fun id held => ?_)
          have fills := closed _ _ meets _ (List.mem_map_of_mem held)
          exact taken_of_admits_null receiver.resolved (known'.reaches
            (.tail (.single (.value listed data)) (.field (.inr held)))) fills
      | @tagAlone _ v t member data each =>
        obtain ⟨w, found, meets⟩ := values v member
        obtain ⟨listed, same⟩ := mem_of_last_value found
        rw [← same]
        cases data' : w.data with
        | none => exact .inl (.tag listed data')
        | some u =>
          rw [data, data'] at meets
          refine .inl (.tagAlone listed data' fun id held => ?_)
          have behind := known'.reaches
            (.tail (.single (.value listed data')) (.field (.inr held)))
          have fills := closed _ _ meets _ (List.mem_map_of_mem held)
          unfold Fills at fills
          split at fills
          · next field located =>
            obtain ⟨own, held', rfl⟩ := List.mem_map.mp (mem_of_last_field located).1
            exact null_taken stable sender.moneyless fills (known.reaches
              (.tail (.single (.value member data)) (.field (.inr held')))) (each own held')
          · exact taken_of_admits_null receiver.resolved behind fills
      | @tagged _ v t inner member data held =>
        obtain ⟨w, found, meets⟩ := values v member
        obtain ⟨listed, same⟩ := mem_of_last_value found
        rw [← same]
        rw [data] at meets
        cases data' : w.data with
        | none =>
          rw [data'] at meets
          exact .inr ⟨.bare listed data', e, i, v, w, known, known', member, listed, same,
            by rw [data]; rfl, data'⟩
        | some u =>
          rw [data'] at meets
          simp only [Value.size, Value.sizeItems] at small
          rcases smaller inner (by omega) (.struct meets)
            (known.reaches (.single (.value member data)))
            (known'.reaches (.single (.value listed data'))) held with taken | ⟨misread, lost⟩
          · exact .inl (.tagged listed data' taken)
          · exact .inr ⟨.tagged listed data' misread, lost⟩
    | @primitive k l widens =>
      cases holds with
      | primitive transmits =>
        exact .inl (.primitive (accepts_of_transmits stable widens
          (fun same => sender.moneyless (same ▸ known)) transmits))
    | text bare =>
      cases holds with
      | tag member none => exact .inl (.primitive (accepts_text _))
      | tagAlone member data each =>
        rw [bare _ member] at data
        cases data
      | tagged member data inner =>
        rw [bare _ member] at data
        cases data

end Transfer

end ApiSchema
