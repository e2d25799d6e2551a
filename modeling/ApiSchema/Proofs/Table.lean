import ApiSchema.Table
import Mathlib.Data.List.Induction
import Mathlib.Data.List.Nodup

/-! What a table holds after entries have been added. -/

namespace ApiSchema.Table

variable {α β : Type}

theorem insert_of_not_mem {table : Table α} {name : String} {item : α} (new : name ∉ table.keys) :
    table.insert name item = table ++ [(name, item)] := by
  induction table with
  | nil => rfl
  | cons head rest ih =>
    simp only [keys, List.map_cons, List.mem_cons, not_or] at new
    rw [insert, if_neg (Ne.symm new.1), ih new.2]
    rfl

theorem has_iff {table : Table α} {name : String} : table.has name = true ↔ name ∈ table.keys := by
  induction table with
  | nil => simp [has, keys]
  | cons head rest ih =>
    obtain ⟨n, item⟩ := head
    have rest' : has ((n, item) :: rest) name = if name = n then true else has rest name := by
      unfold has
      rw [show List.lookup name ((n, item) :: rest) = get? ((n, item) :: rest) name from rfl,
        get?_cons]
      split <;> rfl
    rw [rest']
    simp only [keys, List.map_cons, List.mem_cons]
    split
    · next same => simp [same]
    · next other =>
      rw [ih]
      simp [other, keys]

theorem get?_eq_none_iff {table : Table α} {name : String} :
    table.get? name = none ↔ name ∉ table.keys := by
  rw [← has_iff, has, get?, Option.not_isSome_iff_eq_none]

theorem mem_keys_insert {table : Table α} {name other : String} {item : α}
    (member : other ∈ (table.insert name item).keys) : other ∈ table.keys ∨ other = name := by
  induction table with
  | nil => exact .inr (by simpa [insert, keys] using member)
  | cons head rest ih =>
    rw [insert] at member
    split at member
    · next same => exact .inl (by simpa [keys] using member)
    · simp only [keys, List.map_cons, List.mem_cons] at member ⊢
      rcases member with first | later
      · exact .inl (.inl first)
      · exact (ih later).imp .inr id

theorem mem_of_mem_insert {table : Table α} {name : String} {item : α} {entry : String × α}
    (member : entry ∈ table.insert name item) : entry ∈ table ∨ entry = (name, item) := by
  induction table with
  | nil => exact .inr (List.mem_singleton.mp member)
  | cons head rest ih =>
    rw [insert] at member
    split at member
    · next same =>
      rw [same] at member
      exact (List.mem_cons.mp member).symm.imp (List.mem_cons_of_mem _) id
    · rcases List.mem_cons.mp member with rfl | later
      · exact .inl (List.mem_cons_self ..)
      · exact (ih later).imp (List.mem_cons_of_mem _) id

theorem insert_distinct {table : Table α} (distinct : table.keys.Nodup) (name : String) (item : α) :
    (table.insert name item).keys.Nodup := by
  induction table with
  | nil => simp [insert, keys]
  | cons head rest ih =>
    have parts := List.nodup_cons.mp distinct
    rw [insert]
    split
    · exact distinct
    · next other =>
      refine List.nodup_cons.mpr ⟨fun again => ?_, ih parts.2⟩
      rcases mem_keys_insert again with old | same
      · exact parts.1 old
      · exact other same

theorem mem_of_get? {table : Table α} {name : String} {item : α} (found : table.get? name = some item) :
    (name, item) ∈ table := by
  obtain ⟨before, after, rfl, _⟩ := List.lookup_eq_some_iff.mp found
  exact List.mem_append_right _ (List.mem_cons_self ..)

theorem keys_insert (table : Table α) (name : String) (item : α) :
    (table.insert name item).keys = if name ∈ table.keys then table.keys else table.keys ++ [name] := by
  induction table with
  | nil => rfl
  | cons head rest ih =>
    obtain ⟨n, i⟩ := head
    by_cases same : n = name
    · simp [insert, keys, same]
    · rw [insert, if_neg same]
      simp only [keys, List.map_cons, List.mem_cons] at ih ⊢
      rw [ih]
      by_cases known : name ∈ rest.map (·.1) <;> simp [known, Ne.symm same]

theorem get?_of_mem {table : Table α} (distinct : table.keys.Nodup) {name : String} {item : α}
    (member : (name, item) ∈ table) : table.get? name = some item := by
  induction table with
  | nil => cases member
  | cons head rest ih =>
    obtain ⟨n, i⟩ := head
    simp only [keys, List.map_cons, List.nodup_cons] at distinct
    rw [get?_cons]
    rcases List.mem_cons.mp member with same | later
    · cases same
      simp
    · rw [if_neg, ih distinct.2 later]
      rintro rfl
      exact distinct.1 (List.mem_map_of_mem later)

theorem ext_keys {table other : Table α} (distinct : table.keys.Nodup) (names : table.keys = other.keys)
    (items : ∀ name, table.get? name = other.get? name) : table = other := by
  induction table generalizing other with
  | nil => exact (List.map_eq_nil_iff.mp names.symm).symm
  | cons head rest ih =>
    obtain ⟨n, i⟩ := head
    cases other with
    | nil => cases names
    | cons head' rest' =>
      obtain ⟨n', i'⟩ := head'
      obtain ⟨rfl, later⟩ := List.cons.inj names
      obtain ⟨new, distinct⟩ := List.nodup_cons.mp distinct
      have here := items n
      simp only [get?_cons, if_true, Option.some.injEq] at here
      rw [here, ih distinct later fun name => ?_]
      by_cases same : name = n
      · subst same
        have new' : name ∉ keys rest' := by
          rw [keys, ← later]
          exact new
        rw [get?_eq_none_iff.mpr new, get?_eq_none_iff.mpr new']
      · simpa [get?_cons, same] using items name

theorem ofEntries_of_nodup {entries : List (String × α)} (distinct : (entries.map (·.1)).Nodup) :
    ofEntries entries = entries := by
  have step : ∀ (entries : List (String × α)) (table : Table α),
      (table.keys ++ entries.map (·.1)).Nodup →
        entries.foldl (fun table entry => table.insert entry.1 entry.2) table = table ++ entries := by
    intro entries
    induction entries with
    | nil => intro table _; simp
    | cons entry rest ih =>
      intro table distinct
      obtain ⟨name, item⟩ := entry
      have new : name ∉ table.keys := by
        intro member
        exact (List.nodup_append.mp distinct).2.2 name member name (List.mem_cons_self ..) rfl
      rw [List.foldl_cons]
      dsimp only
      rw [insert_of_not_mem new, ih]
      · simp
      · simpa [keys] using distinct
  exact step entries [] (by simpa [keys] using distinct)

theorem keys_ofEntries (entries : List (String × α)) :
    (ofEntries entries).keys = (entries.map (·.1)).eraseDups := by
  induction entries using List.reverseRecOn with
  | nil => rfl
  | append_singleton entries last ih =>
    rw [ofEntries, List.foldl_append]
    change ((ofEntries entries).insert last.1 last.2).keys = _
    rw [keys_insert, List.map_append, List.eraseDups_append, ih]
    by_cases known : last.1 ∈ entries.map (·.1) <;> simp [List.removeAll, List.eraseDups_cons, known]

theorem ofEntries_distinct (entries : List (String × α)) : (ofEntries entries).keys.Nodup := by
  have step : ∀ table : Table α, table.keys.Nodup →
      (entries.foldl (fun table entry => table.insert entry.1 entry.2) table).keys.Nodup := by
    induction entries with
    | nil => exact fun _ distinct => distinct
    | cons entry rest ih => exact fun table distinct => ih _ (insert_distinct distinct _ _)
  exact step [] List.nodup_nil

theorem mem_of_mem_ofEntries {entries : List (String × α)} {entry : String × α}
    (member : entry ∈ ofEntries entries) : entry ∈ entries := by
  have step : ∀ table : Table α,
      entry ∈ entries.foldl (fun table entry => table.insert entry.1 entry.2) table →
        entry ∈ table ∨ entry ∈ entries := by
    clear member
    induction entries with
    | nil => exact fun _ => .inl
    | cons first rest ih =>
      intro table member
      rcases ih _ member with earlier | later
      · rcases mem_of_mem_insert earlier with old | same
        · exact .inl old
        · exact .inr (List.mem_cons.mpr (.inl same))
      · exact .inr (List.mem_cons_of_mem _ later)
  exact (step [] member).resolve_left nofun

theorem get?_foldl_insert (nameOf : β → String) (itemOf : β → α) (items : List β) (name : String) :
    ∀ table : Table α,
      get? (items.foldl (fun table b => table.insert (nameOf b) (itemOf b)) table) name =
        ((items.reverse.find? (nameOf · == name)).map itemOf).or (table.get? name) := by
  induction items with
  | nil => intro table; simp
  | cons b rest ih =>
    intro table
    rw [List.foldl_cons, ih, get?_insert, List.reverse_cons, List.find?_append]
    cases found : rest.reverse.find? (nameOf · == name) with
    | some last => simp
    | none =>
      by_cases same : name = nameOf b
      · simp [same]
      · have other : (nameOf b == name) = false := by simpa using Ne.symm same
        simp [same, other]

theorem get?_append_item (table : Table (List α)) (name other : String) (item : α) :
    (table.append name item).get? other =
      if other = name then some ((table.get? other).getD [] ++ [item]) else table.get? other := by
  induction table with
  | nil => rw [append, get?_cons]; rfl
  | cons head rest ih =>
    obtain ⟨n, items⟩ := head
    rw [append]
    split
    · next same =>
      subst same
      rw [get?_cons, get?_cons]
      split <;> simp
    · next differs =>
      rw [get?_cons, get?_cons, ih]
      by_cases same : other = n
      · subst same
        rw [if_pos rfl, if_pos rfl, if_neg differs]
      · rw [if_neg same, if_neg same]

theorem get?_foldl_append (entries : List (String × α)) (name : String) :
    ∀ table : Table (List α),
      get? (entries.foldl (fun table (place, a) => table.append place a) table) name =
        (entries.filter (·.1 == name)).foldl (fun items e => some (items.getD [] ++ [e.2]))
          (table.get? name) := by
  induction entries with
  | nil => exact fun _ => rfl
  | cons entry rest ih =>
    intro table
    rw [List.foldl_cons, ih, get?_append_item, List.filter_cons]
    by_cases same : entry.1 = name
    · simp [same]
    · simp [same, Ne.symm same]

theorem insert_append {table : Table α} {name : String} (new : name ∉ table.keys) (rest : Table α)
    (item : α) : insert (table ++ rest) name item = table ++ insert rest name item := by
  induction table with
  | nil => rfl
  | cons head others ih =>
    simp only [keys, List.map_cons, List.mem_cons, not_or] at new
    rw [List.cons_append, insert, if_neg (Ne.symm new.1), ih new.2, List.cons_append]

theorem foldl_insert_append (nameOf : β → String) (itemOf : β → α) {items : List β} {table : Table α}
    (new : ∀ b ∈ items, nameOf b ∉ table.keys) (rest : Table α) :
    items.foldl (fun table b => table.insert (nameOf b) (itemOf b)) (table ++ rest) =
      table ++ items.foldl (fun table b => table.insert (nameOf b) (itemOf b)) rest := by
  induction items generalizing rest with
  | nil => rfl
  | cons b others ih =>
    obtain ⟨here, later⟩ := List.forall_mem_cons.mp new
    rw [List.foldl_cons, insert_append here, ih later, List.foldl_cons]

theorem map_ofEntries (f : α → β) (entries : List (String × α)) :
    (ofEntries entries).map (fun entry => (entry.1, f entry.2)) =
      ofEntries (entries.map fun entry => (entry.1, f entry.2)) := by
  have one : ∀ (table : Table α) (name : String) (item : α),
      (table.insert name item).map (fun entry => (entry.1, f entry.2)) =
        insert (table.map fun entry => (entry.1, f entry.2)) name (f item) := by
    intro table name item
    induction table with
    | nil => rfl
    | cons head rest ih =>
      simp only [insert, List.map_cons]
      split
      · rfl
      · rw [List.map_cons, ih]
  have step : ∀ table : Table α,
      (entries.foldl (fun table entry => table.insert entry.1 entry.2) table).map
          (fun entry => (entry.1, f entry.2)) =
        (entries.map fun entry => (entry.1, f entry.2)).foldl
          (fun table entry => insert table entry.1 entry.2)
          (table.map fun entry => (entry.1, f entry.2)) := by
    induction entries with
    | nil => exact fun _ => rfl
    | cons entry rest ih =>
      intro table
      rw [List.foldl_cons, ih, one, List.map_cons, List.foldl_cons]
  exact step []

theorem keys_append_item (table : Table (List α)) (name : String) (item : α) :
    (table.append name item).keys = if name ∈ table.keys then table.keys else table.keys ++ [name] := by
  induction table with
  | nil => rfl
  | cons head rest ih =>
    obtain ⟨n, items⟩ := head
    by_cases same : n = name
    · simp [append, keys, same]
    · rw [append, if_neg same]
      simp only [keys, List.map_cons, List.mem_cons] at ih ⊢
      rw [ih]
      by_cases known : name ∈ rest.map (·.1) <;> simp [known, Ne.symm same]

theorem append_item_distinct {table : Table (List α)} (distinct : table.keys.Nodup) (name : String)
    (item : α) : (table.append name item).keys.Nodup := by
  rw [keys_append_item]
  split
  · exact distinct
  · next new => exact distinct.append (List.nodup_singleton _) (by simpa using new)

theorem forall_append_item {holds : α → Prop} {table : Table (List α)} {name : String} {item : α}
    (own : holds item) (before : ∀ entry ∈ table, ∀ a ∈ entry.2, holds a) :
    ∀ entry ∈ table.append name item, ∀ a ∈ entry.2, holds a := by
  induction table with
  | nil => exact List.forall_mem_singleton.mpr (List.forall_mem_singleton.mpr own)
  | cons entry rest ih =>
    obtain ⟨n, items⟩ := entry
    obtain ⟨first, others⟩ := List.forall_mem_cons.mp before
    rw [append]
    split
    · exact List.forall_mem_cons.mpr
        ⟨List.forall_mem_append.mpr ⟨first, List.forall_mem_singleton.mpr own⟩, others⟩
    · exact List.forall_mem_cons.mpr ⟨first, ih others⟩

theorem foldl_append_induction {motive : Table (List α) → Prop} {entries : List (String × α)}
    (step : ∀ table, ∀ entry ∈ entries, motive table → motive (table.append entry.1 entry.2))
    (start : motive []) :
    motive (entries.foldl (fun table (place, a) => table.append place a) []) := by
  generalize [] = table at start ⊢
  induction entries generalizing table with
  | nil => exact start
  | cons entry rest ih =>
    obtain ⟨here, later⟩ := List.forall_mem_cons.mp fun entry member table => step table entry member
    exact ih (fun table entry member => later entry member table) _ (here table start)

theorem forall_foldl_append {holds : α → Prop} {entries : List (String × α)}
    (each : ∀ entry ∈ entries, holds entry.2) :
    ∀ entry ∈ entries.foldl (fun table (place, a) => append table place a) [], ∀ a ∈ entry.2, holds a :=
  foldl_append_induction (motive := fun table => ∀ entry ∈ table, ∀ a ∈ entry.2, holds a)
    (fun _ entry member before => forall_append_item (each entry member) before) nofun

theorem foldl_append_distinct (entries : List (String × α)) :
    (keys (entries.foldl (fun table (place, a) => append table place a) [])).Nodup :=
  foldl_append_induction (motive := fun table => table.keys.Nodup)
    (fun _ entry _ distinct => append_item_distinct distinct entry.1 entry.2) List.nodup_nil

theorem items_foldl_append (entries : List (String × α)) (name : String) :
    (get? (entries.foldl (fun table (place, a) => table.append place a) []) name).getD [] =
      (entries.filter (·.1 == name)).map (·.2) := by
  have step : ∀ (entries : List (String × α)) (start : Option (List α)),
      (entries.foldl (fun items e => some (items.getD [] ++ [e.2])) start).getD [] =
        start.getD [] ++ entries.map (·.2) := by
    intro entries
    induction entries with
    | nil => simp
    | cons entry rest ih =>
      intro start
      rw [List.foldl_cons, ih]
      simp
  rw [get?_foldl_append, step]
  rfl

theorem items_of_lists {lists : List (String × List α)} (distinct : (lists.map (·.1)).Nodup)
    {name : String} {items : List α} (member : (name, items) ∈ lists) :
    ((lists.flatMap fun list => list.2.map (list.1, ·)).filter (·.1 == name)).map (·.2) = items := by
  have own : ∀ list : String × List α, ((list.2.map (list.1, ·)).filter (·.1 == name)).map (·.2) =
      if list.1 = name then list.2 else [] := by
    intro list
    rw [List.filter_map, List.map_map]
    by_cases same : list.1 = name <;> simp [same, Function.comp_def]
  have apart : ∀ lists : List (String × List α), name ∉ lists.map (·.1) →
      ((lists.flatMap fun list => list.2.map (list.1, ·)).filter (·.1 == name)).map (·.2) = [] := by
    intro lists new
    rw [List.filter_flatMap, List.map_flatMap, List.flatMap_eq_nil_iff]
    intro list listed
    rw [own, if_neg]
    rintro rfl
    exact new (List.mem_map_of_mem listed)
  induction lists with
  | nil => cases member
  | cons list rest ih =>
    obtain ⟨new, distinct⟩ := List.nodup_cons.mp distinct
    rw [List.flatMap_cons, List.filter_append, List.map_append, own]
    rcases List.mem_cons.mp member with rfl | later
    · rw [if_pos rfl, apart rest new, List.append_nil]
    · rw [if_neg, List.nil_append, ih distinct later]
      rintro rfl
      exact new (List.mem_map.mpr ⟨_, later, rfl⟩)

theorem get?_congr {table other : Table α} (distinct : table.keys.Nodup)
    (distinct' : other.keys.Nodup) (same : ∀ entry, entry ∈ table ↔ entry ∈ other) (name : String) :
    table.get? name = other.get? name := by
  ext item
  constructor
  · exact fun found => get?_of_mem distinct' ((same _).mp (mem_of_get? found))
  · exact fun found => get?_of_mem distinct ((same _).mpr (mem_of_get? found))

end ApiSchema.Table
