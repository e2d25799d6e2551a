import ApiSchema.Value
import Mathlib.Data.List.Nodup
import Mathlib.Data.List.Perm.Subperm

/-! The parts of a value, the sizes of its parts, the entries of its mappings, and values as they
occur. -/

namespace ApiSchema.Value

mutual

/-- A value with everything that its lists hold and its mappings map to. -/
def parts : Value → List Value
  | list items => list items :: partsOfItems items
  | tuple items => tuple items :: partsOfItems items
  | mapping entries => mapping entries :: partsOfEntries entries
  | value => [value]

def partsOfItems : List Value → List Value
  | [] => []
  | item :: rest => parts item ++ partsOfItems rest

def partsOfEntries : List (Value × Value) → List Value
  | [] => []
  | (_, item) :: rest => parts item ++ partsOfEntries rest

end

theorem is_null_of_ne {value : Value} (present : value ≠ null) : value.isNull = false := by
  cases value with
  | null => exact absurd rfl present
  | _ => rfl

theorem self_mem_parts (value : Value) : value ∈ value.parts := by
  cases value <;> simp [parts]

theorem parts_of_item {items : List Value} {item : Value} (member : item ∈ items) :
    item.parts ⊆ partsOfItems items := by
  induction items with
  | nil => cases member
  | cons first rest ih =>
    intro part inside
    rw [partsOfItems, List.mem_append]
    rcases List.mem_cons.mp member with rfl | later
    · exact .inl inside
    · exact .inr (ih later inside)

theorem parts_of_entry {entries : List (Value × Value)} {key item : Value}
    (member : (key, item) ∈ entries) : item.parts ⊆ partsOfEntries entries := by
  induction entries with
  | nil => cases member
  | cons first rest ih =>
    intro part inside
    rw [partsOfEntries, List.mem_append]
    rcases List.mem_cons.mp member with rfl | later
    · exact .inl inside
    · exact .inr (ih later inside)

theorem parts_of_subset {entries others : List (Value × Value)} (fewer : entries ⊆ others) :
    partsOfEntries entries ⊆ partsOfEntries others := by
  induction entries with
  | nil => exact fun _ inside => by cases inside
  | cons first rest ih =>
    intro part inside
    rw [partsOfEntries, List.mem_append] at inside
    rcases inside with here | there
    · exact parts_of_entry (fewer (List.mem_cons_self ..)) here
    · exact ih (fun _ member => fewer (List.mem_cons_of_mem _ member)) there

theorem same_string_iff {value : Value} {text : String} :
    value.same (.string text) = true ↔ value = .string text := by
  cases value <;> simp [same, sameNumber, quotient?, infinite?]

theorem string_same_iff {value : Value} {text : String} :
    (Value.string text).same value = true ↔ value = .string text := by
  cases value with
  | string other =>
    rw [same, beq_iff_eq, Value.string.injEq]
    exact eq_comm
  | _ => simp [same, sameNumber, quotient?, infinite?]

theorem string_not_same_list (text : String) (items : List Value) :
    (Value.string text).same (.list items) = false := by
  rw [← Bool.not_eq_true, string_same_iff]
  exact nofun

theorem list_not_same_string (items : List Value) (text : String) :
    (Value.list items).same (.string text) = false := by
  rw [← Bool.not_eq_true, same_string_iff]
  exact nofun

theorem get?_cons_self (name : String) (item : Value) (rest : List (Value × Value)) :
    get? ((.string name, item) :: rest) (.string name) = some item := by
  simp [get?, same_string_iff]

theorem get?_cons_other {key : Value} {name : String} (other : key ≠ .string name) (item : Value)
    (rest : List (Value × Value)) :
    get? ((key, item) :: rest) (.string name) = get? rest (.string name) := by
  have apart : key.same (.string name) = false := by
    rw [← Bool.not_eq_true, same_string_iff]
    exact other
  simp [get?, apart]

theorem mem_of_get? {entries : List (Value × Value)} {key item : Value}
    (found : get? entries key = some item) : ∃ k, (k, item) ∈ entries := by
  obtain ⟨⟨k, i⟩, located, rfl⟩ := Option.map_eq_some_iff.mp found
  exact ⟨k, List.mem_of_find?_eq_some located⟩

theorem mem_of_get?_string {entries : List (Value × Value)} {name : String} {item : Value}
    (found : get? entries (.string name) = some item) : (.string name, item) ∈ entries := by
  obtain ⟨⟨k, i⟩, located, rfl⟩ := Option.map_eq_some_iff.mp found
  have same := List.find?_some located
  rw [same_string_iff] at same
  exact same ▸ List.mem_of_find?_eq_some located

theorem length_le_of_get? {entries : List (Value × Value)} {names : List String}
    (distinct : names.Nodup) (found : ∀ name ∈ names, (get? entries (.string name)).isSome) :
    names.length ≤ entries.length := by
  have keys : names.map Value.string ⊆ entries.map (·.1) := by
    intro key member
    obtain ⟨name, present, rfl⟩ := List.mem_map.mp member
    obtain ⟨item, located⟩ := Option.isSome_iff_exists.mp (found name present)
    exact List.mem_map_of_mem (f := Prod.fst) (mem_of_get?_string located)
  have once : (names.map Value.string).Nodup :=
    (List.nodup_map_iff fun _ _ same => Value.string.inj same).mpr distinct
  simpa using (List.subperm_of_subset once keys).length_le

theorem get?_map {α : Type} (nameOf : α → String) (itemOf : α → Value) {items : List α}
    (distinct : (items.map nameOf).Nodup) {a : α} (member : a ∈ items) :
    get? (items.map fun b => (.string (nameOf b), itemOf b)) (.string (nameOf a)) =
      some (itemOf a) := by
  induction items with
  | nil => cases member
  | cons b rest ih =>
    rw [List.map_cons, List.nodup_cons] at distinct
    rw [List.map_cons]
    rcases List.mem_cons.mp member with rfl | later
    · exact get?_cons_self ..
    · rw [get?_cons_other, ih distinct.2 later]
      intro same
      rw [Value.string.injEq] at same
      exact distinct.1 (same ▸ List.mem_map_of_mem later)

theorem get?_map_none {α : Type} (nameOf : α → String) (itemOf : α → Value) {items : List α}
    {name : String} (absent : ∀ a ∈ items, nameOf a ≠ name) :
    get? (items.map fun b => (.string (nameOf b), itemOf b)) (.string name) = none := by
  induction items with
  | nil => rfl
  | cons b rest ih =>
    rw [List.map_cons, get?_cons_other]
    · exact ih fun a member => absent a (List.mem_cons_of_mem _ member)
    · intro same
      rw [Value.string.injEq] at same
      exact absent b (List.mem_cons_self ..) same

theorem get?_append_none {entries others : List (Value × Value)} {name : String}
    (absent : get? entries (.string name) = none) :
    get? (entries ++ others) (.string name) = get? others (.string name) := by
  unfold get? at *
  rw [Option.map_eq_none_iff] at absent
  rw [List.find?_append, absent, Option.none_or]

theorem get?_none_iff {entries : List (Value × Value)} {name : String} :
    get? entries (.string name) = none ↔ (entries.any fun (k, _) => k.same (.string name)) = false := by
  unfold get?
  rw [Option.map_eq_none_iff, List.find?_eq_none, List.any_eq_false]

theorem get?_replaced (entries : List (Value × Value)) (key name : String) (item : Value) :
    get? (entries.map fun (k, i) => if k.same (.string key) then (k, item) else (k, i))
        (.string name) =
      if name = key then (get? entries (.string key)).map fun _ => item
      else get? entries (.string name) := by
  induction entries with
  | nil => split <;> rfl
  | cons entry rest ih =>
    obtain ⟨k, i⟩ := entry
    rw [List.map_cons]
    dsimp only
    by_cases own : k = .string key
    · subst own
      rw [if_pos (same_string_iff.mpr rfl), get?_cons_self]
      by_cases here : name = key
      · rw [if_pos here, here, get?_cons_self]
        rfl
      · have other : Value.string key ≠ .string name := fun same => here (Value.string.inj same).symm
        rw [if_neg here, get?_cons_other other, get?_cons_other other, ih, if_neg here]
    · rw [if_neg fun same => own (same_string_iff.mp same), get?_cons_other own]
      by_cases found : k = .string name
      · subst found
        have here : name ≠ key := fun same => own (by rw [same])
        rw [get?_cons_self, if_neg here, get?_cons_self]
      · rw [get?_cons_other found, get?_cons_other found, ih]

theorem get?_insert (entries : List (Value × Value)) (key name : String) (item : Value) :
    get? (insert entries (.string key) item) (.string name) =
      if name = key then some item else get? entries (.string name) := by
  unfold insert
  split
  · next known =>
    rw [get?_replaced]
    cases found : get? entries (.string key) with
    | none =>
      rw [get?_none_iff.mp found] at known
      cases known
    | some old => rfl
  · next unknown =>
    have absent : get? entries (.string key) = none := by
      simpa [get?_none_iff] using unknown
    by_cases here : name = key
    · rw [if_pos here, here, get?_append_none absent, get?_cons_self]
    · have other : Value.string key ≠ .string name := fun same => here (Value.string.inj same).symm
      have alone : get? [(Value.string key, item)] (.string name) = none := get?_cons_other other ..
      rw [if_neg here]
      unfold get? at *
      rw [List.find?_append, Option.map_or, alone, Option.or_none]

theorem get?_without (entries : List (Value × Value)) (key name : String) :
    get? (entries.filter fun (k, _) => !k.same (.string key)) (.string name) =
      if name = key then none else get? entries (.string name) := by
  induction entries with
  | nil => split <;> rfl
  | cons entry rest ih =>
    obtain ⟨k, i⟩ := entry
    by_cases own : k = .string key
    · subst own
      rw [List.filter_cons_of_neg (by simp [same_string_iff]), ih]
      by_cases here : name = key
      · rw [if_pos here, if_pos here]
      · have other : Value.string key ≠ .string name := fun same => here (Value.string.inj same).symm
        rw [if_neg here, if_neg here, get?_cons_other other]
    · have unlike : k.same (.string key) = false := by
        rw [← Bool.not_eq_true, same_string_iff]
        exact own
      rw [List.filter_cons_of_pos (by simp [unlike])]
      by_cases found : k = .string name
      · subst found
        have here : name ≠ key := fun same => own (by rw [same])
        rw [get?_cons_self, if_neg here, get?_cons_self]
      · rw [get?_cons_other found, get?_cons_other found, ih]

theorem size_pos (value : Value) : 1 ≤ value.size := by
  cases value <;> simp [size]

theorem size_of_item {items : List Value} {item : Value} (member : item ∈ items) :
    item.size ≤ sizeItems items := by
  induction items with
  | nil => cases member
  | cons first rest ih =>
    rw [sizeItems]
    rcases List.mem_cons.mp member with rfl | later
    · omega
    · have := ih later
      omega

theorem size_of_entry {entries : List (Value × Value)} {key item : Value}
    (member : (key, item) ∈ entries) : item.size < sizeEntries entries := by
  induction entries with
  | nil => cases member
  | cons first rest ih =>
    obtain ⟨k, i⟩ := first
    rw [sizeEntries]
    rcases List.mem_cons.mp member with same | later
    · cases same
      have := size_pos key
      omega
    · have := ih later
      omega

end ApiSchema.Value

namespace ApiSchema

namespace Value

def isDated : Value → Bool
  | .date d => d.isValid
  | .timestamp t => t.isValid
  | _ => true

/-- Values as they occur: with dates and times of the calendar. -/
def Sound (value : Value) : Prop := ∀ part ∈ value.parts, part.isDated = true

namespace Sound

theorem of_all {value : Value} (all : value.parts.all isDated = true) : value.Sound :=
  List.all_eq_true.mp all

theorem of_parts {value part : Value} (sound : value.Sound) (inside : part.parts ⊆ value.parts) :
    part.Sound :=
  fun other member => sound other (inside member)

theorem null : Value.null.Sound := fun part member => by
  simp [parts] at member
  simp [member, isDated]

theorem item {items : List Value} {value item : Value} (sound : value.Sound)
    (listed : value = .list items ∨ value = .tuple items) (member : item ∈ items) : item.Sound := by
  apply sound.of_parts
  rcases listed with rfl | rfl <;>
    exact fun part inside => List.mem_cons_of_mem _ (parts_of_item member inside)

theorem entry {entries : List (Value × Value)} (sound : (Value.mapping entries).Sound) (key : Value) :
    ((get? entries key).getD .null).Sound := by
  cases found : get? entries key with
  | none => exact null
  | some item =>
    obtain ⟨k, member⟩ := mem_of_get? found
    exact sound.of_parts fun part inside => List.mem_cons_of_mem _ (parts_of_entry member inside)

theorem fewer {entries others : List (Value × Value)} (sound : (Value.mapping entries).Sound)
    (within : others ⊆ entries) : (Value.mapping others).Sound := by
  intro part member
  rcases List.mem_cons.mp member with rfl | inner
  · rfl
  · exact sound part (List.mem_cons_of_mem _ (parts_of_subset within inner))

end Sound

end Value

end ApiSchema
