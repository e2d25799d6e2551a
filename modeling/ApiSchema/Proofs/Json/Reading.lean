import ApiSchema.Json.Writer
import ApiSchema.Proofs.Codec.Literals
import ApiSchema.Proofs.Json.Numerals
import ApiSchema.Proofs.Table
import ApiSchema.Proofs.Value.Parts

/-! What is read from JSON text is a legible value, and legible values are read back from the text
that is written for them. -/

namespace ApiSchema

theorem short_of_digits {digits : List Char} (present : digits ≠ []) (all : digits.all isDigit = true)
    (short : exceedsDigitLimit digits.length = false) :
    exceedsDigitLimit (digitsOf (digitsValue digits)).length = false := by
  have fewer := digits_of_length_le (List.length_pos_iff.mpr present) (digits_value_lt all)
  simp only [exceedsDigitLimit, decide_eq_false_iff_not, not_lt] at short ⊢
  exact fewer.trans short

namespace Json

section Texts

theorem hex_value_digit {n : Nat} (small : n < 16) : hexValue? (Text.hexDigit n) = some n := by
  have all : ∀ m : Fin 16, hexValue? (Text.hexDigit m.val) = some m.val := by decide
  exact all ⟨n, small⟩

theorem hex_digits_four (n : Nat) : Text.hexDigits 4 n =
    [Text.hexDigit (n / 16 / 16 / 16 % 16), Text.hexDigit (n / 16 / 16 % 16),
      Text.hexDigit (n / 16 % 16), Text.hexDigit (n % 16)] := rfl

theorem hex_number_digits {n : Nat} (small : n < 0x10000) :
    hexNumber? (Text.hexDigits 4 n) = some n := by
  have whole : 16 * (16 * (16 * (16 * 0 + n / 16 / 16 / 16 % 16) + n / 16 / 16 % 16) + n / 16 % 16) +
      n % 16 = n := by omega
  simp only [hex_digits_four, hexNumber?, List.foldl_cons, List.foldl_nil, Option.bind_some,
    hex_value_digit (Nat.mod_lt _ (by decide : 0 < 16)), Option.map_some, whole]

theorem read_text_unit {a b c d : Char} {code : Nat} (number : hexNumber? [a, b, c, d] = some code)
    (high : isHighUnit code = false) (low : isLowUnit code = false) (rest : List Char) :
    readText ('\\' :: 'u' :: a :: b :: c :: d :: rest) =
      (readText rest).map fun (text, rest) => (Char.ofNat code :: text, rest) := by
  rw [readText.eq_def]
  split
  · next same => cases same
  · next same => cases same
  · next same =>
    cases same
    simp [number, high, low]
  · next same =>
    cases same
    simp [number, high, low]
  · next _ other same =>
    cases same
    exact absurd rfl (other a b c d rest rfl)
  · next other same =>
    cases same
    exact absurd rfl (other _ _ rfl)

theorem read_text_pair {a b c d e f g h : Char} {high low : Nat}
    (first : hexNumber? [a, b, c, d] = some high) (second : hexNumber? [e, f, g, h] = some low)
    (isHigh : isHighUnit high = true) (isLow : isLowUnit low = true) (rest : List Char) :
    readText ('\\' :: 'u' :: a :: b :: c :: d :: '\\' :: 'u' :: e :: f :: g :: h :: rest) =
      (readText rest).map fun (text, rest) =>
        (Char.ofNat (0x10000 + (high - 0xd800) * 0x400 + (low - 0xdc00)) :: text, rest) := by
  rw [readText]
  simp [first, second, isHigh, isLow]

theorem read_text_escape {c own : Char} (other : c ≠ 'u') (escape : simpleEscape? c = some own)
    (rest : List Char) : readText ('\\' :: c :: rest) =
      (readText rest).map fun (text, rest) => (own :: text, rest) := by
  rw [readText]
  · simp [escape]
  · rintro _ _ _ _ _ _ _ _ _ rfl
    exact absurd rfl other
  · rintro _ _ _ _ _ rfl
    exact absurd rfl other

theorem read_text_own {c : Char} (quote : c ≠ '"') (slash : c ≠ '\\') (shown : 0x20 ≤ c.toNat)
    (rest : List Char) :
    readText (c :: rest) = (readText rest).map fun (text, rest) => (c :: text, rest) := by
  rw [readText]
  · rw [if_neg (by omega)]
  all_goals simp_all

theorem read_text_unit_escape {n : Nat} (small : n < 0x10000) (high : isHighUnit n = false)
    (low : isLowUnit n = false) (rest : List Char) : readText (unitEscape n ++ rest) =
      (readText rest).map fun (text, rest) => (Char.ofNat n :: text, rest) :=
  read_text_unit (hex_number_digits small) high low rest

theorem read_text_char (c : Char) (rest : List Char) : readText (charText c ++ rest) =
    (readText rest).map fun (text, rest) => (c :: text, rest) := by
  unfold charText
  split
  · next same =>
    rw [same]
    exact read_text_escape (by decide) rfl rest
  split
  · next same =>
    rw [same]
    exact read_text_escape (by decide) rfl rest
  split
  · next same =>
    rw [same]
    exact read_text_escape (by decide) rfl rest
  split
  · next same =>
    rw [same]
    exact read_text_escape (by decide) rfl rest
  split
  · next same =>
    rw [same]
    exact read_text_escape (by decide) rfl rest
  split
  · next same =>
    rw [same]
    exact read_text_escape (by decide) rfl rest
  split
  · next same =>
    rw [same]
    exact read_text_escape (by decide) rfl rest
  next quote slash _ _ _ _ _ =>
    have range := c.valid
    dsimp only
    split
    · next shown =>
      simp only [Bool.and_eq_true, decide_eq_true_eq] at shown
      exact read_text_own quote slash shown.1 rest
    · split
      · next small =>
        have unit : isHighUnit c.toNat = false ∧ isLowUnit c.toNat = false := by
          have apart : c.toNat < 0xd800 ∨ 0xdfff < c.toNat ∧ c.toNat < 0x110000 := range
          simp only [isHighUnit, isLowUnit, Bool.and_eq_false_iff, decide_eq_false_iff_not]
          omega
        rw [read_text_unit_escape small unit.1 unit.2, Char.ofNat_toNat]
      · next large =>
        have above : c.toNat < 0x110000 := by
          have apart : c.toNat < 0xd800 ∨ 0xdfff < c.toNat ∧ c.toNat < 0x110000 := range
          omega
        have high : isHighUnit (0xd800 + (c.toNat - 0x10000) / 0x400) = true := by
          simp only [isHighUnit, Bool.and_eq_true, decide_eq_true_eq]
          omega
        have low : isLowUnit (0xdc00 + (c.toNat - 0x10000) % 0x400) = true := by
          simp only [isLowUnit, Bool.and_eq_true, decide_eq_true_eq]
          omega
        have whole : 0x10000 + (0xd800 + (c.toNat - 0x10000) / 0x400 - 0xd800) * 0x400 +
            (0xdc00 + (c.toNat - 0x10000) % 0x400 - 0xdc00) = c.toNat := by omega
        have pair := read_text_pair (hex_number_digits (by omega)) (hex_number_digits (by omega))
          high low rest
        rw [whole, Char.ofNat_toNat] at pair
        exact pair

theorem read_text_written (cs rest : List Char) :
    readText (cs.flatMap charText ++ '"' :: rest) = some (cs, rest) := by
  induction cs with
  | nil => rfl
  | cons c others ih =>
    rw [List.flatMap_cons, List.append_assoc, read_text_char, ih]
    rfl

end Texts

def keyed (members : List (String × Value)) : List (Value × Value) :=
  members.map fun (key, item) => (.string key, item)

/-- Values that JSON text stands for: all numbers have one form and are short, and all keys are
different texts. -/
inductive Legible : Value → Prop where
  | null : Legible .null
  | bool {b} : Legible (.bool b)
  | int {n} (short : exceedsDigitLimit (digitsOf n.natAbs).length = false) : Legible (.int n)
  | float {x} (canonical : x.IsCanonical) : Legible (.float x)
  | string {text} : Legible (.string text)
  | list {items} (each : ∀ item ∈ items, Legible item) : Legible (.list items)
  | mapping {members : List (String × Value)} (distinct : (Table.keys members).Nodup)
    (each : ∀ member ∈ members, Legible member.2) : Legible (.mapping (keyed members))

def LegibleEntries (entries : List (Value × Value)) : Prop :=
  ∃ members, entries = keyed members ∧ (Table.keys members).Nodup ∧
    ∀ member ∈ members, Legible member.2

theorem LegibleEntries.mapping {entries : List (Value × Value)} (legible : LegibleEntries entries) :
    Legible (.mapping entries) := by
  obtain ⟨members, rfl, distinct, each⟩ := legible
  exact .mapping distinct each

theorem insert_keyed {members : List (String × Value)} (distinct : (Table.keys members).Nodup)
    (key : String) (item : Value) :
    Value.insert (keyed members) (.string key) item = keyed (Table.insert members key item) := by
  by_cases known : key ∈ Table.keys members
  · rw [Value.insert, if_pos]
    case hc =>
      obtain ⟨⟨own, i⟩, listed, rfl⟩ := List.mem_map.mp known
      exact List.any_eq_true.mpr ⟨(.string own, i), List.mem_map.mpr ⟨_, listed, rfl⟩,
        Value.same_string_iff.mpr rfl⟩
    induction members with
    | nil => cases known
    | cons head rest ih =>
      obtain ⟨own, i⟩ := head
      simp only [Table.keys, List.map_cons, List.nodup_cons, List.mem_cons] at distinct known
      simp only [keyed, List.map_cons, Table.insert, Value.same_string_iff, Value.string.injEq]
      by_cases same : own = key
      · subst same
        simp only [if_true, List.map_cons, List.map_map, List.cons.injEq, true_and]
        apply List.map_congr_left
        rintro ⟨other, j⟩ member
        have apart : other ≠ own := by
          rintro rfl
          exact distinct.1 (List.mem_map_of_mem (f := Prod.fst) member)
        simp [apart, Value.same_string_iff]
      · rw [if_neg same, if_neg same, List.map_cons]
        have later := ih distinct.2 (known.resolve_left (Ne.symm same))
        simp only [keyed, Value.same_string_iff] at later
        simp only [Value.same_string_iff, later]
  · rw [Value.insert, if_neg, Table.insert_of_not_mem known]
    case hnc =>
      rw [Bool.not_eq_true, List.any_eq_false]
      rintro ⟨k, i⟩ member
      obtain ⟨⟨own, j⟩, listed, same⟩ := List.mem_map.mp member
      cases same
      rw [Value.same_string_iff, Value.string.injEq]
      rintro rfl
      exact known (List.mem_map_of_mem (f := Prod.fst) listed)
    simp [keyed]

theorem LegibleEntries.insert {entries : List (Value × Value)} (legible : LegibleEntries entries)
    (key : String) {item : Value} (own : Legible item) :
    LegibleEntries (Value.insert entries (.string key) item) := by
  obtain ⟨members, rfl, distinct, each⟩ := legible
  refine ⟨_, insert_keyed distinct key item, Table.insert_distinct distinct key item, ?_⟩
  intro member listed
  rcases Table.mem_of_mem_insert listed with old | rfl
  · exact each member old
  · exact own

section Reading

theorem read_whole_all {cs whole rest : List Char} (read : readWhole cs = (whole, rest)) :
    whole.all isDigit = true := by
  unfold readWhole at read
  split at read
  · cases read
    decide
  · cases read
    exact List.all_takeWhile

theorem legible_of_read_number {negative : Bool} {cs rest : List Char} {value : Value}
    (read : readNumber negative cs = some (value, rest)) : Legible value := by
  unfold readNumber at read
  cases split : readWhole cs with
  | mk whole behind =>
  rw [split] at read
  have all := read_whole_all split
  dsimp only at read
  split at read
  · cases read
  · next present =>
    split at read
    · split at read
      · cases read
      · next short =>
        cases read
        apply Legible.int
        have written := short_of_digits (by simpa using present) all (by simpa using short)
        cases negative <;> simpa using written
    · cases read
      exact .float (Binary64.of_decimal_canonical _ _ _)

theorem legible_of_read (fuel : Nat) :
    (∀ {cs value rest}, readValue fuel cs = some (value, rest) → Legible value) ∧
    (∀ {cs items rest}, readItems fuel cs = some (items, rest) → ∀ item ∈ items, Legible item) ∧
    ∀ {entries cs all rest}, LegibleEntries entries →
      readMembers fuel entries cs = some (all, rest) → LegibleEntries all := by
  induction fuel with
  | zero =>
    refine ⟨fun read => ?_, fun read => ?_, fun _ read => ?_⟩
    · simp [readValue] at read
    · simp [readItems] at read
    · simp [readMembers] at read
  | succ fuel ih =>
    obtain ⟨values, items, members⟩ := ih
    have empty : LegibleEntries [] := ⟨[], rfl, .nil, nofun⟩
    refine ⟨?_, ?_, ?_⟩
    · intro cs value rest read
      rw [readValue.eq_def] at read
      dsimp only at read
      split at read
      · obtain ⟨_, _, same⟩ := Option.map_eq_some_iff.mp read
        cases same
        exact .string
      · split at read
        · cases read
          exact empty.mapping
        · obtain ⟨_, inner, same⟩ := Option.map_eq_some_iff.mp read
          cases same
          exact (members empty inner).mapping
      · split at read
        · cases read
          exact .list nofun
        · obtain ⟨_, inner, same⟩ := Option.map_eq_some_iff.mp read
          cases same
          exact .list (items inner)
      · cases read
        exact .null
      · cases read
        exact .bool
      · cases read
        exact .bool
      · cases read
        exact .float trivial
      · cases read
        exact .float trivial
      · cases read
        exact .float trivial
      · exact legible_of_read_number read
      · exact legible_of_read_number read
    · intro cs all rest read
      rw [readItems] at read
      split at read
      · cases read
      · next first =>
        split at read
        · obtain ⟨_, others, same⟩ := Option.map_eq_some_iff.mp read
          cases same
          exact List.forall_mem_cons.mpr ⟨values first, items others⟩
        · cases read
          exact List.forall_mem_singleton.mpr (values first)
        · cases read
    · intro entries cs all rest legible read
      rw [readMembers.eq_def] at read
      dsimp only at read
      split at read
      · split at read
        · cases read
        · split at read
          · split at read
            · cases read
            · next own =>
              split at read
              · exact members (legible.insert _ (values own)) read
              · cases read
                exact legible.insert _ (values own)
              · cases read
          · cases read
      · cases read

theorem legible_of_read? {text : String} {value : Value} (read : read? text = some value) :
    Legible value := by
  unfold read? at read
  dsimp only at read
  split at read
  · next first =>
    split at read
    · cases read
      exact (legible_of_read _).1 first
    · cases read
  · cases read

end Reading

end Json

end ApiSchema
