import ApiSchema.Codec
import ApiSchema.Proofs.Value.Parts
import Mathlib.Algebra.GroupWithZero.Nat
import Mathlib.Data.List.Infix

/-! The bound of a conversion decides nothing: a conversion is one step around the conversions of
what is inside, and it is without end only if no fuel is enough for it. -/

namespace ApiSchema

namespace UrlNormaliser

@[reducible]
def refusing : UrlNormaliser where
  normal? _ := none

theorem refusing_stable : refusing.Stable := nofun

@[reducible]
def single (spelled normal : String) : UrlNormaliser where
  normal? text := if text = spelled ∨ text = normal then some normal else none

theorem single_stable (spelled normal : String) : (single spelled normal).Stable := by
  intro text url taken
  obtain ⟨_, same⟩ := Option.ite_none_right_eq_some.mp taken
  cases same
  exact if_pos (.inr rfl)

end UrlNormaliser

namespace Value

mutual

def texts : Value → List String
  | string text => [text]
  | list items | tuple items => textsOfItems items
  | mapping entries => textsOfEntries entries
  | _ => []

def textsOfItems : List Value → List String
  | [] => []
  | item :: rest => texts item ++ textsOfItems rest

def textsOfEntries : List (Value × Value) → List String
  | [] => []
  | (key, item) :: rest => texts key ++ texts item ++ textsOfEntries rest

end

def room (texts : List String) : Nat := (texts.map fun text => text.length + 1).sum

theorem room_append (first later : List String) : room (first ++ later) = room first + room later := by
  simp [room]

mutual

theorem room_texts_le : (value : Value) → room value.texts ≤ value.size
  | string text => by
    rw [texts, room, List.map_singleton, List.sum_singleton, size]
    omega
  | list items | tuple items => by
    have inner := room_items_le items
    rw [texts, size]
    omega
  | mapping entries => by
    have inner := room_entries_le entries
    rw [texts, size]
    omega
  | null | bool _ | int _ | float _ | bytes _ | buffer _ | decimal _ | date _ | timestamp _ => by
    simp [texts, room, size]

theorem room_items_le : (items : List Value) → room (textsOfItems items) ≤ sizeItems items
  | [] => Nat.le_refl _
  | item :: rest => by
    have first := room_texts_le item
    have later := room_items_le rest
    rw [textsOfItems, sizeItems, room_append]
    omega

theorem room_entries_le :
    (entries : List (Value × Value)) → room (textsOfEntries entries) ≤ sizeEntries entries
  | [] => Nat.le_refl _
  | (key, item) :: rest => by
    have own := room_texts_le key
    have first := room_texts_le item
    have later := room_entries_le rest
    rw [textsOfEntries, sizeEntries, room_append, room_append]
    omega

end

theorem texts_of_item {items : List Value} {item : Value} (member : item ∈ items) :
    item.texts ⊆ textsOfItems items := by
  induction items with
  | nil => cases member
  | cons first rest ih =>
    intro text inside
    rw [textsOfItems, List.mem_append]
    rcases List.mem_cons.mp member with rfl | later
    · exact .inl inside
    · exact .inr (ih later inside)

theorem texts_of_entry {entries : List (Value × Value)} {key item : Value}
    (member : (key, item) ∈ entries) :
    key.texts ⊆ textsOfEntries entries ∧ item.texts ⊆ textsOfEntries entries := by
  induction entries with
  | nil => cases member
  | cons first rest ih =>
    obtain ⟨k, i⟩ := first
    rw [textsOfEntries]
    rcases List.mem_cons.mp member with same | later
    · cases same
      exact ⟨fun _ inside => by simp [inside], fun _ inside => by simp [inside]⟩
    · exact ⟨fun _ inside => List.mem_append_right _ ((ih later).1 inside),
        fun _ inside => List.mem_append_right _ ((ih later).2 inside)⟩

theorem size_of_key {entries : List (Value × Value)} {key item : Value}
    (member : (key, item) ∈ entries) : key.size < sizeEntries entries := by
  induction entries with
  | nil => cases member
  | cons first rest ih =>
    obtain ⟨k, i⟩ := first
    rw [sizeEntries]
    rcases List.mem_cons.mp member with same | later
    · cases same
      have := size_pos item
      omega
    · have := ih later
      omega

/-- Less than the size for a null and an empty mapping, into which the conversion of others leads. -/
def weight : Value → Nat
  | null => 0
  | mapping [] => 1
  | value => value.size + 1

theorem weight_le (value : Value) : value.weight ≤ value.size + 1 := by
  unfold weight
  split <;> omega

theorem weight_lt {value other : Value} (smaller : value.size < other.size) :
    value.weight < other.weight := by
  have own := value.weight_le
  have positive := value.size_pos
  have large : other.weight = other.size + 1 := by
    unfold weight
    split
    · exact absurd smaller (by simp only [size]; omega)
    · exact absurd smaller (by simp only [size, sizeEntries]; omega)
    · rfl
  omega

theorem weight_pos {value : Value} (present : value.isNull = false) : 0 < value.weight := by
  unfold weight
  split
  · cases present
  · exact Nat.one_pos
  · omega

theorem weight_string (text : String) : (string text).weight = text.length + 2 := by
  simp [weight, size]
  omega

end Value

namespace Codec

open Value (texts textsOfEntries weight room)

section Results

variable {path : String} {value : Value}

theorem bind_ok_iff {α β : Type} {first : Result α} {next : α → Result β} {b : β} :
    (first >>= next) = .ok b ↔ ∃ a, first = .ok a ∧ next a = .ok b := by
  cases first with
  | error e => simp [bind, Except.bind]
  | ok a => simp [bind, Except.bind]

theorem mismatch_ne_ok {α : Type} {expected : String} {a : α} :
    (mismatch path expected value : Result α) ≠ .ok a := by
  intro equal
  obtain ⟨_, _, failed⟩ := bind_ok_iff.mp equal
  cases failed

theorem refuse_ne_ok {α : Type} {type : Value} {a : α} :
    (refuse path type value : Result α) ≠ .ok a := by
  intro equal
  obtain ⟨_, _, failed⟩ := bind_ok_iff.mp equal
  exact mismatch_ne_ok failed

end Results

/-- The second outcome is the first one, unless it is for want of an end. -/
def Follows {α : Type} (first second : Result α) : Prop :=
  second ≠ .error .endless → first = second

namespace Follows

variable {α β : Type} {first second : Result α}

theorem refl (outcome : Result α) : Follows outcome outcome := fun _ => rfl

theorem antisymm (forth : Follows first second) (back : Follows second first) : first = second := by
  by_cases ended : second = .error .endless
  · by_cases ended' : first = .error .endless
    · rw [ended, ended']
    · exact (back ended').symm
  · exact forth ended

theorem bind {next other : α → Result β} (start : Follows first second)
    (later : ∀ a, Follows (next a) (other a)) : Follows (first >>= next) (second >>= other) := by
  intro ended
  cases outcome : second with
  | error e =>
    rw [outcome] at start ended
    have same := start fun failed => ended (by rw [failed]; rfl)
    rw [same]
    rfl
  | ok a =>
    rw [outcome] at start ended
    rw [start nofun]
    exact later a ended

end Follows

inductive Onward (table : TypeTable) : (name : String) → (value type : Value) → Prop where
  | optional {name inner value} (peeled : TypeText.peel? name = some (.optional, inner)) :
    Onward table name value (.string inner)
  | entry {name value type} (whole : TypeText.peel? name = none)
    (found : Value.get? table (.string name) = some type) : Onward table name value type

inductive Inward : (type value type' value' : Value) → Prop where
  | item {name inner value items item} (peeled : TypeText.peel? name = some (.array, inner))
    (listed : value = .list items ∨ value = .tuple items) (member : item ∈ items) :
    Inward (.string name) value (.string inner) item
  | field {fields entries key type} (member : (key, type) ∈ fields) :
    Inward (.mapping fields) (.mapping entries) type ((Value.get? entries key).getD .null)
  | data {members member tag type value data} (among : member ∈ members)
    (pair : memberPair member = .ok (tag, type)) (smaller : data.weight < value.weight)
    (fits : data.size ≤ value.size) : Inward (.list members) value type data

/-- Members with data have texts as tags. -/
def Tagged (members : List Value) : Prop :=
  ∀ member ∈ members, ∀ tag type, memberPair member = .ok (tag, type) → tag.isString = true

/-- The members of an enum are converted by what is inside of them. -/
def Way.Local (w : Way) : Prop := ∀ (f g : Conversion) (path : String) members value,
  Tagged members → (∀ path' type' value', Inward (.list members) value type' value' →
    Follows (f path' type' value') (g path' type' value')) →
      Follows (w.tagged f path members value) (w.tagged g path members value)

section Steps

variable {w : Way} {table : TypeTable} {f g : Conversion} {path : String} {type value : Value}

theorem convert_items_follow {items : List Value} {index : Nat}
    (each : ∀ item ∈ items, ∀ place, Follows (f place type item) (g place type item)) :
    Follows (convertItems f path type index items) (convertItems g path type index items) := by
  induction items generalizing index with
  | nil => exact .refl _
  | cons item rest ih =>
    refine .bind (each item (List.mem_cons_self ..) _) fun converted => ?_
    exact .bind (ih fun other member => each other (List.mem_cons_of_mem _ member)) fun _ => .refl _

theorem convert_fields_follow {entries fields : List (Value × Value)}
    (each : ∀ key type, (key, type) ∈ fields → ∀ place,
      Follows (f place type ((Value.get? entries key).getD .null))
        (g place type ((Value.get? entries key).getD .null))) :
    Follows (convertFields f path entries fields) (convertFields g path entries fields) := by
  induction fields with
  | nil => exact .refl _
  | cons field rest ih =>
    obtain ⟨key, type⟩ := field
    refine .bind (.refl _) fun place => ?_
    refine .bind (each key type (List.mem_cons_self ..) _) fun item => ?_
    exact .bind (ih fun key type member => each key type (List.mem_cons_of_mem _ member))
      fun _ => .refl _

theorem encode_members_follow {whole tag : Value} {data : List (Value × Value)}
    {members : List Value} (each : ∀ member ∈ members, ∀ own type,
      memberPair member = .ok (own, type) → ∀ place,
        Follows (f place type (.mapping data)) (g place type (.mapping data))) :
    Follows (encodeMembers f path whole value tag data members)
      (encodeMembers g path whole value tag data members) := by
  induction members with
  | nil => exact .refl _
  | cons member rest ih =>
    have others := ih fun other present => each other (List.mem_cons_of_mem _ present)
    have own := each member (List.mem_cons_self ..)
    unfold encodeMembers
    split
    · next hollow => cases hollow
    · next text others' same =>
      cases same
      split
      · exact .refl _
      · exact others
    · next member' others' _ same =>
      cases same
      cases pair : memberPair member with
      | error e => exact .refl _
      | ok parts =>
        obtain ⟨tag', type⟩ := parts
        dsimp only [bind, Except.bind]
        split
        · exact .bind (.refl _) fun place => .bind (own tag' type pair place) fun _ => .refl _
        · exact others

theorem decode_members_follow {whole : Value} {members : List Value}
    (each : ∀ member ∈ members, ∀ own type, memberPair member = .ok (own, type) →
      ∀ data, taggedData? own value = some data → ∀ place,
        Follows (f place type data) (g place type data)) :
    Follows (decodeMembers f path whole value members)
      (decodeMembers g path whole value members) := by
  induction members with
  | nil => exact .refl _
  | cons member rest ih =>
    have others := ih fun other present => each other (List.mem_cons_of_mem _ present)
    have own := each member (List.mem_cons_self ..)
    unfold decodeMembers
    split
    · next hollow => cases hollow
    · next text others' same =>
      cases same
      split
      · exact .refl _
      · exact others
    · next member' others' _ same =>
      cases same
      cases pair : memberPair member with
      | error e => exact .refl _
      | ok parts =>
        obtain ⟨tag', type⟩ := parts
        dsimp only [bind, Except.bind]
        cases behind : taggedData? tag' value with
        | none => exact others
        | some data =>
          exact .bind (.refl _) fun place => .bind (own tag' type pair data behind place) fun _ => .refl _

theorem size_without_key {entries : List (Value × Value)} {key item : Value}
    (found : Value.get? entries key = some item) :
    Value.sizeEntries (entries.filter fun entry => !entry.1.same key) < Value.sizeEntries entries := by
  have fewer : ∀ entries : List (Value × Value),
      Value.sizeEntries (entries.filter fun entry => !entry.1.same key) ≤ Value.sizeEntries entries := by
    intro entries
    induction entries with
    | nil => exact Nat.le_refl _
    | cons entry rest ih =>
      obtain ⟨k, i⟩ := entry
      rw [List.filter_cons, Value.sizeEntries]
      split
      · rw [Value.sizeEntries]
        omega
      · omega
  induction entries with
  | nil => cases found
  | cons entry rest ih =>
    obtain ⟨k, i⟩ := entry
    have positive := k.size_pos
    rw [List.filter_cons, Value.sizeEntries]
    cases same : k.same key with
    | true =>
      have later := fewer rest
      rw [if_neg (by simp)]
      omega
    | false =>
      have later := ih (by simpa [Value.get?, List.find?_cons, same] using found)
      rw [if_pos (by simp), Value.sizeEntries]
      omega

theorem encoding_local [UrlNormaliser] : Way.encoding.Local := by
  intro f g path members value _ inward
  simp only [Way.encoding, encodeTagged]
  split
  · next entries =>
    split
    · next tag found =>
      refine encode_members_follow fun member among own type pair place => ?_
      have smaller : ∀ {others}, Value.sizeEntries others < Value.sizeEntries entries →
          (Value.mapping others).size < (Value.mapping entries).size := by
        intro others fewer
        rw [Value.size, Value.size]
        omega
      have smaller := smaller (size_without_key found)
      exact inward _ _ _ (.data among pair (Value.weight_lt smaller) (Nat.le_of_lt smaller))
    · exact .refl _
  · exact .refl _

theorem decoding_local [UrlNormaliser] : Way.decoding.Local := by
  intro f g path members value tagged inward
  refine decode_members_follow fun member among own type pair data behind place => ?_
  unfold taggedData? at behind
  split at behind
  · next alone =>
    cases behind
    have text := tagged member among own type pair
    cases own with
    | string tag =>
      rw [Value.string_same_iff] at alone
      subst alone
      refine inward _ _ _ (.data among pair ?_ (Value.size_pos _))
      rw [Value.weight_string]
      exact Nat.lt_add_left _ Nat.one_lt_two
    | _ => cases text
  · split at behind
    · next first data' _ =>
      split at behind
      · cases behind
        have smaller : data.size < (Value.list [first, data]).size := by
          have positive := first.size_pos
          simp only [Value.size, Value.sizeItems]
          omega
        exact inward _ _ _ (.data among pair (Value.weight_lt smaller) (Nat.le_of_lt smaller))
      · cases behind
    · cases behind

theorem step_follows (inner : w.Local) (tagged : ∀ members, type = .list members → Tagged members)
    (onward : ∀ name, type = .string name → ∀ type', Onward table name value type' →
      Follows (f path type' value) (g path type' value))
    (inward : ∀ path' type' value', Inward type value type' value' →
      Follows (f path' type' value') (g path' type' value')) :
    Follows (convertStep w table f path type value) (convertStep w table g path type value) := by
  refine .bind (.refl _) fun _ => ?_
  cases type with
  | list members =>
    dsimp only
    split
    · exact .refl _
    · exact inner f g path members value (tagged members rfl) inward
  | mapping fields =>
    cases value with
    | mapping entries =>
      refine .bind (convert_fields_follow fun key type member place => ?_) fun _ => .refl _
      exact inward _ _ _ (.field member)
    | _ => exact .refl _
  | string name =>
    dsimp only [convertNamed]
    split
    · next suffix name' peeled =>
      cases suffix with
      | optional =>
        dsimp only [convertSuffix]
        split
        · exact .refl _
        · exact onward name rfl _ (.optional peeled)
      | array =>
        have each : ∀ items, (value = .list items ∨ value = .tuple items) → ∀ item ∈ items, ∀ place,
            Follows (f place (.string name') item) (g place (.string name') item) :=
          fun items listed item member place => inward _ _ _ (.item peeled listed member)
        cases value with
        | list items =>
          exact .bind (convert_items_follow (each items (.inl rfl))) fun _ => .refl _
        | tuple items =>
          exact .bind (convert_items_follow (each items (.inr rfl))) fun _ => .refl _
        | _ => exact .refl _
    · next whole =>
      split
      · exact .refl _
      · split
        · exact .refl _
        · exact .refl _
        · next type' _ found => exact onward name rfl _ (.entry whole found)
  | _ => exact .refl _

end Steps

/-- Descriptions of types: names, enums whose members with data have texts as tags, and structs. -/
inductive Description : Value → Prop where
  | name (text : String) : Description (.string text)
  | enum {members} (tagged : Tagged members) (each : ∀ member ∈ members, ∀ tag type,
      memberPair member = .ok (tag, type) → Description type) : Description (.list members)
  | struct {fields : List (Value × Value)} (each : ∀ key type, (key, type) ∈ fields →
      Description type) : Description (.mapping fields)

def Described (table : TypeTable) : Prop :=
  ∀ name type, Value.get? table (.string name) = some type → Description type

def Starts (inner outer : String) : Prop := inner.toList <+: outer.toList

def names (text : String) : List String := text.toList.inits.map String.ofList

theorem mem_names {name text : String} : name ∈ names text ↔ Starts name text := by
  simp only [names, Starts, List.mem_map, List.mem_inits]
  constructor
  · rintro ⟨cs, starts, rfl⟩
    simpa using starts
  · exact fun starts => ⟨name.toList, starts, by simp⟩

theorem names_length (text : String) : (names text).length = text.length + 1 := by
  simp [names, String.length_toList]

theorem peel_starts {name inner : String} {suffix : Suffix}
    (peeled : TypeText.peel? name = some (suffix, inner)) :
    Starts inner name ∧ inner.length < name.length := by
  obtain ⟨⟨suffix', rest⟩, backwards, same⟩ := Option.map_eq_some_iff.mp peeled
  cases same
  have reversed : ∃ tail, tail ≠ [] ∧ name.toList.reverse = tail ++ rest := by
    unfold TypeText.peelBackwards? at backwards
    split at backwards
    · next written =>
      cases backwards
      exact ⟨['?'], nofun, written⟩
    · next written =>
      cases backwards
      exact ⟨[']', '['], nofun, written⟩
    · cases backwards
  obtain ⟨tail, some, written⟩ := reversed
  have whole : name.toList = rest.reverse ++ tail.reverse := by
    rw [← List.reverse_append, ← written, List.reverse_reverse]
  refine ⟨⟨tail.reverse, by rw [String.toList_ofList, whole]⟩, ?_⟩
  have longer := congrArg List.length whole
  have present := List.length_pos_iff.mpr some
  rw [List.length_append, List.length_reverse, List.length_reverse, String.length_toList] at longer
  rw [String.length_ofList, List.length_reverse]
  omega

def Covers (all : List String) (type : Value) : Prop := ∀ text ∈ texts type, names text ⊆ all

theorem parts_fit {value part : Value} {parts : List Value} (held : parts? value = some parts)
    (member : part ∈ parts) : texts part ⊆ texts value ∧ part.size ≤ value.size := by
  cases value with
  | list items | tuple items =>
    cases held
    have inside := Value.size_of_item member
    refine ⟨Value.texts_of_item member, ?_⟩
    simp only [Value.size]
    omega
  | mapping entries =>
    cases held
    obtain ⟨⟨key, item⟩, present, rfl⟩ := List.mem_map.mp member
    have inside := Value.size_of_key present
    refine ⟨(Value.texts_of_entry present).1, ?_⟩
    simp only [Value.size]
    omega
  | bytes content | buffer content =>
    cases held
    obtain ⟨b, _, rfl⟩ := List.mem_map.mp member
    exact ⟨List.nil_subset _, Nat.le_refl _⟩
  | _ => cases held

theorem member_pair_fits {member tag type : Value} (pair : memberPair member = .ok (tag, type)) :
    texts type ⊆ texts member ∧ type.size ≤ member.size := by
  unfold memberPair at pair
  split at pair
  · next held =>
    cases pair
    exact parts_fit held (by simp)
  · cases pair
  · cases pair

section Names

variable {table : TypeTable} {all : List String} {name : String} {type type' value value' : Value}

theorem Covers.of_texts {other : Value} (covers : Covers all type) (fewer : texts other ⊆ texts type) :
    Covers all other := fun text member => covers text (fewer member)

theorem covers_onward (covered : ∀ text ∈ textsOfEntries table, names text ⊆ all)
    (covers : Covers all (.string name)) (onward : Onward table name value type') :
    Covers all type' := by
  cases onward with
  | optional peeled =>
    obtain ⟨starts, _⟩ := peel_starts peeled
    intro text member
    rw [texts, List.mem_singleton] at member
    subst member
    intro other start
    have whole : Starts other name := List.IsPrefix.trans (mem_names.mp start) starts
    exact covers name (List.mem_singleton_self _) (mem_names.mpr whole)
  | entry _ found =>
    intro text member
    obtain ⟨key, present⟩ := Value.mem_of_get? found
    exact covered text ((Value.texts_of_entry present).2 member)

theorem covers_inward (covers : Covers all type) (inward : Inward type value type' value') :
    Covers all type' := by
  cases inward with
  | @item name inner _ _ _ peeled =>
    obtain ⟨starts, _⟩ := peel_starts peeled
    intro text member
    rw [texts, List.mem_singleton] at member
    subst member
    intro other start
    have whole : Starts other name := List.IsPrefix.trans (mem_names.mp start) starts
    exact covers name (List.mem_singleton_self _) (mem_names.mpr whole)
  | field member => exact covers.of_texts (Value.texts_of_entry member).2
  | data among pair =>
    refine covers.of_texts fun text member => ?_
    exact Value.texts_of_item among ((member_pair_fits pair).1 member)

theorem inward_weight (inward : Inward type value type' value') :
    value'.weight < value.weight ∧ value'.size ≤ value.size := by
  cases inward with
  | @item _ _ _ items item _ listed member =>
    have inside := Value.size_of_item member
    rcases listed with rfl | rfl
    all_goals
      refine ⟨Value.weight_lt ?_, ?_⟩ <;>
      · simp only [Value.size]
        omega
  | @field fields entries key _ member =>
    cases found : Value.get? entries key with
    | none => exact ⟨Value.weight_pos rfl, Value.size_pos _⟩
    | some item =>
      obtain ⟨k, present⟩ := Value.mem_of_get? found
      have inside := Value.size_of_entry present
      refine ⟨Value.weight_lt ?_, ?_⟩ <;>
      · simp only [Value.size, Option.getD_some]
        omega
  | data _ _ smaller fits => exact ⟨smaller, fits⟩

theorem onward_size (onward : Onward table name value type') :
    type'.size ≤ (Value.string name).size + Value.sizeEntries table := by
  cases onward with
  | optional peeled =>
    have shorter := (peel_starts peeled).2
    simp only [Value.size]
    omega
  | entry _ found =>
    obtain ⟨key, present⟩ := Value.mem_of_get? found
    have inside := Value.size_of_entry present
    omega

theorem inward_size (inward : Inward type value type' value') : type'.size ≤ type.size := by
  cases inward with
  | item peeled =>
    have shorter := (peel_starts peeled).2
    simp only [Value.size]
    omega
  | field member =>
    have inside := Value.size_of_entry member
    simp only [Value.size]
    omega
  | data among pair =>
    have inside := Value.size_of_item among
    have fits := (member_pair_fits pair).2
    simp only [Value.size]
    omega

theorem Description.tagged {members : List Value} (description : Description (.list members)) :
    Tagged members := by
  cases description with
  | enum tagged => exact tagged

theorem Description.onward (described : Described table) (onward : Onward table name value type') :
    Description type' := by
  cases onward with
  | optional => exact .name _
  | entry _ found => exact described _ _ found

theorem Description.inward (description : Description type) (inward : Inward type value type' value') :
    Description type' := by
  cases inward with
  | item => exact .name _
  | field member =>
    cases description with
    | struct each => exact each _ _ member
  | data among pair =>
    cases description with
    | enum _ each => exact each _ among _ _ pair

end Names

section Fuel

variable {w : Way} {table : TypeTable} {path : String} {type value : Value}

theorem convert_within_succ (w : Way) (table : TypeTable) (fuel : Nat) :
    convertWithin w table (fuel + 1) = convertStep w table (convertWithin w table fuel) := rfl

theorem convert_within_mono (inner : w.Local) (described : Described table) {fuel more : Nat}
    (le : fuel ≤ more) (description : Description type) :
    Follows (convertWithin w table more path type value) (convertWithin w table fuel path type value) := by
  induction fuel generalizing more path type value with
  | zero => exact fun ended => absurd rfl ended
  | succ fuel ih =>
    obtain ⟨more, rfl⟩ := Nat.exists_eq_add_one.mpr (show 0 < more by omega)
    rw [convert_within_succ, convert_within_succ]
    refine step_follows inner ?_ ?_ ?_
    · rintro members rfl
      exact description.tagged
    · intro name _ type' onward
      exact ih (by omega) (.onward described onward)
    · intro path' type' value' inward
      exact ih (by omega) (description.inward inward)

/-- Between two steps into a value no name is met twice, unless there is no end: those that were met
do not end with as much fuel. -/
theorem within_enough (inner : w.Local) (described : Described table) {all : List String}
    (covered : ∀ text ∈ textsOfEntries table, names text ⊆ all) (n : Nat) :
    ∀ {fuel path type value met}, Description type → Covers all type → met.Nodup → met ⊆ all →
      (∀ name ∈ met, convertWithin w table n path (.string name) value = .error .endless) →
        weight value * (all.length + 2) + (all.length - met.length) + 1 ≤ fuel →
          Follows (convertWithin w table fuel path type value) (convertWithin w table n path type value) := by
  induction n with
  | zero => exact fun _ _ _ _ _ _ ended => absurd rfl ended
  | succ n ih =>
    intro fuel path type value met description covers distinct among endless enough
    have back : ∀ name ∈ met, convertWithin w table n path (.string name) value = .error .endless := by
      intro name member
      by_contra ended
      have same := convert_within_mono inner described (Nat.le_succ n) (.name name) ended
      exact ended (same ▸ endless name member)
    by_cases before : convertWithin w table n path type value = .error .endless
    · obtain ⟨fuel, rfl⟩ := Nat.exists_eq_add_one.mpr (show 0 < fuel by omega)
      by_cases known : ∃ name ∈ met, type = .string name
      · obtain ⟨name, member, rfl⟩ := known
        exact fun ended => absurd (endless name member) ended
      rw [convert_within_succ, convert_within_succ]
      refine step_follows inner ?_ ?_ ?_
      · rintro members rfl
        exact description.tagged
      · rintro name rfl type' onward
        have new : name ∉ met := fun member => known ⟨name, member, rfl⟩
        have once : (name :: met).Nodup := List.nodup_cons.mpr ⟨new, distinct⟩
        have own : name ∈ all :=
          covers name (List.mem_singleton_self _) (mem_names.mpr (List.prefix_refl _))
        have within : name :: met ⊆ all := List.cons_subset.mpr ⟨own, among⟩
        have short := (List.subperm_of_subset once within).length_le
        rw [List.length_cons] at short
        refine ih (.onward described onward) (covers_onward covered covers onward) once within ?_
          (by rw [List.length_cons]; omega)
        intro other member
        rcases List.mem_cons.mp member with rfl | old
        · exact before
        · exact back other old
      · intro path' type' value' inward
        have less := (inward_weight inward).1
        have room : weight value' * (all.length + 2) + (all.length + 2) ≤
            weight value * (all.length + 2) := by
          rw [← Nat.succ_mul]
          exact Nat.mul_le_mul_right _ less
        exact ih (description.inward inward) (covers_inward covers inward) .nil (List.nil_subset _)
          nofun (by rw [List.length_nil]; omega)
    · have same : convertWithin w table (n + 1) path type value = convertWithin w table n path type value :=
        convert_within_mono inner described (Nat.le_succ n) description before
      rw [same]
      exact ih description covers distinct among back enough

theorem convert_within_of_bound (inner : w.Local) (described : Described table)
    (description : Description type) {fuel : Nat} (enough : bound table type value ≤ fuel) :
    convertWithin w table fuel path type value = convert w table path type value := by
  refine Follows.antisymm (convert_within_mono inner described enough description) ?_
  have covered : ∀ text ∈ textsOfEntries table,
      names text ⊆ (texts type ++ textsOfEntries table).flatMap names :=
    fun text member name start =>
      List.mem_flatMap.mpr ⟨text, List.mem_append_right _ member, start⟩
  have covers : Covers ((texts type ++ textsOfEntries table).flatMap names) type :=
    fun text member name start =>
      List.mem_flatMap.mpr ⟨text, List.mem_append_left _ member, start⟩
  refine within_enough inner described covered fuel description covers .nil (List.nil_subset _) nofun ?_
  have length : ((texts type ++ textsOfEntries table).flatMap names).length ≤
      type.size + Value.sizeEntries table := by
    have own := Value.room_texts_le type
    have others := Value.room_entries_le table
    have whole := Value.room_append (texts type) (textsOfEntries table)
    rw [List.length_flatMap, List.map_congr_left fun text _ => names_length text]
    unfold room at own others whole
    omega
  have light := value.weight_le
  generalize ((texts type ++ textsOfEntries table).flatMap names).length = l at length ⊢
  calc weight value * (l + 2) + (l - ([] : List String).length) + 1
      ≤ (value.size + 1) * (l + 2) + (l + 2) := by
        have := Nat.mul_le_mul_right (l + 2) light
        simp only [List.length_nil]
        omega
    _ = (value.size + 2) * (l + 2) := by rw [← Nat.succ_mul]
    _ ≤ (value.size + 3) * (type.size + Value.sizeEntries table + 2) :=
        Nat.mul_le_mul (by omega) (by omega)

theorem convert_eq (inner : w.Local) (described : Described table) (description : Description type) :
    convert w table path type value = convertStep w table (convert w table) path type value := by
  have room : ∀ {type' value' : Value}, type'.size ≤ type.size + Value.sizeEntries table →
      value'.size ≤ value.size → bound table type' value' ≤
        (value.size + 3) * (type.size + Value.sizeEntries table + Value.sizeEntries table + 2) :=
    fun small light => Nat.mul_le_mul (by omega) (by omega)
  generalize (value.size + 3) * (type.size + Value.sizeEntries table + Value.sizeEntries table + 2) =
    fuel at room
  have whole : bound table type value ≤ fuel + 1 :=
    Nat.le_succ_of_le (room (by omega) (Nat.le_refl _))
  have onward : ∀ name, type = .string name → ∀ type', Onward table name value type' →
      convertWithin w table fuel path type' value = convert w table path type' value := by
    rintro name rfl type' onward
    exact convert_within_of_bound inner described (.onward described onward)
      (room (onward_size onward) (Nat.le_refl _))
  have inward : ∀ path' type' value', Inward type value type' value' →
      convertWithin w table fuel path' type' value' = convert w table path' type' value' := by
    intro path' type' value' inward
    have small := inward_size inward
    exact convert_within_of_bound inner described (description.inward inward)
      (room (by omega) (inward_weight inward).2)
  rw [← convert_within_of_bound inner described description whole, convert_within_succ]
  have tagged : ∀ members, type = .list members → Tagged members := by
    rintro members rfl
    exact description.tagged
  refine Follows.antisymm (step_follows inner tagged ?_ ?_) (step_follows inner tagged ?_ ?_)
  · exact fun name same type' next => fun _ => onward name same type' next
  · exact fun path' type' value' next => fun _ => inward path' type' value' next
  · exact fun name same type' next => fun _ => (onward name same type' next).symm
  · exact fun path' type' value' next => fun _ => (inward path' type' value' next).symm

end Fuel

end Codec

end ApiSchema
