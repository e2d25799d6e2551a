/-!
Tables from names to items that keep the order in which names were first added.
-/

namespace ApiSchema

abbrev Table (α : Type) := List (String × α)

namespace Table

variable {α : Type}

def get? (table : Table α) (name : String) : Option α := table.lookup name

def has (table : Table α) (name : String) : Bool := (table.lookup name).isSome

def keys (table : Table α) : List String := table.map (·.1)

/-- Adds an item; a known name keeps its place and takes the new item. -/
def insert : Table α → String → α → Table α
  | [], name, item => [(name, item)]
  | (n, i) :: rest, name, item =>
    if n = name then (n, item) :: rest else (n, i) :: insert rest name item

def ofEntries (entries : List (String × α)) : Table α :=
  entries.foldl (fun table (name, item) => table.insert name item) []

def append : Table (List α) → String → α → Table (List α)
  | [], name, item => [(name, [item])]
  | (n, items) :: rest, name, item =>
    if n = name then (n, items ++ [item]) :: rest else (n, items) :: append rest name item

theorem get?_cons (n : String) (i : α) (rest : Table α) (name : String) :
    get? ((n, i) :: rest) name = if name = n then some i else get? rest name := by
  by_cases h : name = n
  · simp [get?, h]
  · have : (name == n) = false := by simpa using h
    simp [get?, List.lookup_cons, this, h]

theorem get?_insert (table : Table α) (name other : String) (item : α) :
    (table.insert name item).get? other = if other = name then some item else table.get? other := by
  induction table with
  | nil => simp [insert, get?_cons]
  | cons head rest ih =>
    obtain ⟨n, i⟩ := head
    by_cases h : n = name
    · subst h
      by_cases k : other = n <;> simp [insert, get?_cons, k]
    · rw [insert, if_neg h, get?_cons, get?_cons, ih]
      by_cases k : other = n
      · subst k
        simp [h]
      · simp [k]

end Table

end ApiSchema
