import ApiSchema.Proofs.Json.Reading
import ApiSchema.Value.Display

/-! Legible values are read back from the text that is written for them, whatever blanks are written
between their parts. Rewriting a value as JSON text twice is rewriting it once. -/

namespace ApiSchema.Json

/-- The marks of a spacing are a comma and a colon, with nothing but blanks behind them. -/
structure Spacing.Proper (spacing : Spacing) : Prop where
  item : ∃ blanks, spacing.item.toList = ',' :: blanks ∧ blanks.all isSpace = true
  key : ∃ blanks, spacing.key.toList = ':' :: blanks ∧ blanks.all isSpace = true

theorem Spacing.proper_wide : Spacing.wide.Proper :=
  ⟨⟨[' '], rfl, rfl⟩, ⟨[' '], rfl, rfl⟩⟩

theorem Spacing.proper_compact : Spacing.compact.Proper :=
  ⟨⟨[], rfl, rfl⟩, ⟨[], rfl, rfl⟩⟩

/-- A text starts with something else than a blank or the end of a list or a mapping. -/
def Opens (text : List Char) : Prop :=
  ∃ c rest, text = c :: rest ∧ isSpace c = false ∧ c ≠ ']' ∧ c ≠ '\x7d'

/-- A value is read from a text, up to its end. -/
structure Spells (value : Value) (text : List Char) : Prop where
  opens : Opens text
  read : ∀ fuel rest, 2 * text.length ≤ fuel → Ends rest →
    readValue fuel (text ++ rest) = some (value, rest)

theorem skip_space_of_opens {text : List Char} (opens : Opens text) (rest : List Char) :
    skipSpace (text ++ rest) = text ++ rest := by
  obtain ⟨c, others, rfl, shown, _⟩ := opens
  unfold skipSpace
  rw [List.cons_append, List.dropWhile_cons_of_neg (by simp [shown])]

theorem skip_space_blanks {blanks : List Char} (all : blanks.all isSpace = true) (rest : List Char) :
    skipSpace (blanks ++ rest) = skipSpace rest := by
  unfold skipSpace
  exact List.dropWhile_append_of_pos (List.all_eq_true.mp all)

section Numbers

variable {c : Char} {body rest : List Char} (fuel : Nat)

theorem read_value_digit (digit : isDigit c = true) :
    readValue (fuel + 1) (c :: rest) = readNumber false (c :: rest) := by
  rw [readValue]
  all_goals
    rintro _ ⟨⟩
    cases digit

theorem read_value_minus (digit : isDigit c = true) :
    readValue (fuel + 1) ('-' :: c :: rest) = readNumber true (c :: rest) := by
  rw [readValue]
  rintro _ ⟨⟩
  cases digit

theorem opens_digit (digit : isDigit c = true) (rest : List Char) : Opens (c :: rest) := by
  have apart : ∀ d, isDigit d = false → c ≠ d := by
    rintro d other rfl
    rw [digit] at other
    cases other
  refine ⟨c, rest, rfl, ?_, apart _ rfl, apart _ rfl⟩
  simp only [isSpace, Bool.or_eq_false_iff, beq_eq_false_iff_ne]
  exact ⟨⟨⟨apart _ rfl, apart _ rfl⟩, apart _ rfl⟩, apart _ rfl⟩

theorem spells_number {value : Value} {negative : Bool} (first : ∃ c rest, body = c :: rest ∧ isDigit c = true)
    (read : ∀ rest, Ends rest → readNumber negative (body ++ rest) = some (value, rest)) :
    Spells value ((if negative then ['-'] else []) ++ body) := by
  obtain ⟨c, others, rfl, digit⟩ := first
  cases negative with
  | true =>
    refine ⟨⟨'-', _, rfl, rfl, by decide, by decide⟩, fun fuel rest enough ends => ?_⟩
    obtain ⟨fuel, rfl⟩ := Nat.exists_eq_add_one.mpr (show 0 < fuel by simp at enough; omega)
    rw [← read rest ends]
    exact read_value_minus fuel digit
  | false =>
    refine ⟨opens_digit digit others, fun fuel rest enough ends => ?_⟩
    obtain ⟨fuel, rfl⟩ := Nat.exists_eq_add_one.mpr (show 0 < fuel by simp at enough; omega)
    rw [← read rest ends]
    exact read_value_digit fuel digit

end Numbers

theorem spells_int {n : Int} (short : exceedsDigitLimit (digitsOf n.natAbs).length = false) :
    Spells (.int n) (toString n).toList := by
  have whole := whole_digits_of n.natAbs
  have value := digits_value_of n.natAbs
  have spelled : Spells (.int n) ((if decide (n < 0) then ['-'] else []) ++ digitsOf n.natAbs) := by
    refine spells_number whole.first fun rest ends => ?_
    rw [read_number_whole whole short ends, value]
    congr 3
    split
    · next negative =>
      rw [decide_eq_true_eq] at negative
      omega
    · next positive =>
      rw [decide_eq_true_eq] at positive
      omega
  rw [int_text]
  split
  · next negative => simpa [negative] using spelled
  · next positive => simpa [positive] using spelled

theorem spells_float {x : Binary64} (canonical : x.IsCanonical) :
    Spells (.float x) (floatText x).toList := by
  cases x with
  | nan =>
    refine ⟨⟨'N', _, rfl, rfl, by decide, by decide⟩, fun fuel rest enough _ => ?_⟩
    obtain ⟨fuel, rfl⟩ := Nat.exists_eq_add_one.mpr (show 0 < fuel by simp [floatText] at enough; omega)
    rfl
  | infinity negative =>
    cases negative with
    | true =>
      refine ⟨⟨'-', _, rfl, rfl, by decide, by decide⟩, fun fuel rest enough _ => ?_⟩
      obtain ⟨fuel, rfl⟩ :=
        Nat.exists_eq_add_one.mpr (show 0 < fuel by simp [floatText] at enough; omega)
      rfl
    | false =>
      refine ⟨⟨'I', _, rfl, rfl, by decide, by decide⟩, fun fuel rest enough _ => ?_⟩
      obtain ⟨fuel, rfl⟩ :=
        Nat.exists_eq_add_one.mpr (show 0 < fuel by simp [floatText] at enough; omega)
      rfl
  | finite negative mantissa exponent =>
    obtain ⟨body, c, k, written, scaled, value⟩ := Binary64.text_scaled canonical
    rw [floatText, written]
    · refine spells_number scaled.first fun rest ends => ?_
      rw [read_number_scaled scaled ends, value]
    all_goals nofun

theorem string_text (text : String) :
    (stringText text).toList = '"' :: text.toList.flatMap charText ++ ['"'] := by
  rw [stringText, String.toList_ofList]

theorem spells_string (text : String) : Spells (.string text) (stringText text).toList := by
  rw [string_text]
  refine ⟨⟨'"', _, rfl, rfl, by decide, by decide⟩, fun fuel rest enough _ => ?_⟩
  obtain ⟨fuel, rfl⟩ := Nat.exists_eq_add_one.mpr (show 0 < fuel by simp at enough; omega)
  simp only [List.cons_append, List.append_assoc, List.nil_append]
  rw [readValue, read_text_written]
  simp

section Parts

variable {spacing : Spacing}

def Written (spacing : Spacing) (value : Value) : Prop :=
  ∃ text, write? spacing value = some text ∧ Spells value text.toList

theorem write_items_cons (item next : Value) (rest : List Value) :
    writeItems? spacing (item :: next :: rest) = (do
      let first ← write? spacing item
      let others ← writeItems? spacing (next :: rest)
      return first ++ spacing.item ++ others) := rfl

theorem items_written (proper : spacing.Proper) {items : List Value} (present : items ≠ [])
    (each : ∀ item ∈ items, Written spacing item) :
    ∃ body, writeItems? spacing items = some body ∧ Opens body.toList ∧
      ∀ fuel rest, 2 * body.toList.length + 1 ≤ fuel →
        readItems fuel (body.toList ++ ']' :: rest) = some (items, rest) := by
  obtain ⟨blanks, mark, blank⟩ := proper.item
  induction items with
  | nil => exact absurd rfl present
  | cons item others ih =>
    obtain ⟨text, written, spells⟩ := each item (List.mem_cons_self ..)
    cases others with
    | nil =>
      refine ⟨text, written, spells.opens, fun fuel rest enough => ?_⟩
      obtain ⟨fuel, rfl⟩ := Nat.exists_eq_add_one.mpr (show 0 < fuel by omega)
      rw [readItems, spells.read fuel _ (by omega) (.cons rfl)]
      rfl
    | cons next others =>
      obtain ⟨body, written', opens, read⟩ :=
        ih (List.cons_ne_nil _ _) fun other member => each other (List.mem_cons_of_mem _ member)
      refine ⟨text ++ spacing.item ++ body, ?_, ?_, fun fuel rest enough => ?_⟩
      · rw [write_items_cons, written, written']
        rfl
      · obtain ⟨c, behind, same, first⟩ := spells.opens
        exact ⟨c, behind ++ spacing.item.toList ++ body.toList, by
          rw [String.toList_append, String.toList_append, same]; rfl, first⟩
      · simp only [String.toList_append, mark, List.length_append, List.length_cons] at enough
        obtain ⟨fuel, rfl⟩ := Nat.exists_eq_add_one.mpr (show 0 < fuel by omega)
        simp only [String.toList_append, mark, List.append_assoc, List.cons_append]
        rw [readItems, spells.read fuel _ (by omega) (.cons rfl)]
        have comma : ∀ cs, skipSpace (',' :: cs) = ',' :: cs := fun _ => rfl
        simp only [comma, skip_space_blanks blank, skip_space_of_opens opens]
        rw [read fuel rest (by omega)]
        rfl

theorem write_entries_one (key : String) (item : Value) :
    writeEntries? spacing [(.string key, item)] = (do
      let item ← write? spacing item
      return stringText key ++ spacing.key ++ item) := rfl

theorem write_entries_cons (key : String) (item : Value) (next : Value × Value)
    (rest : List (Value × Value)) :
    writeEntries? spacing ((.string key, item) :: next :: rest) = (do
      let item ← write? spacing item
      let others ← writeEntries? spacing (next :: rest)
      return stringText key ++ spacing.key ++ item ++ spacing.item ++ others) := rfl

theorem read_member (proper : spacing.Proper) {fuel : Nat} {entries : List (Value × Value)}
    {key : String} {item : Value} {text : List Char} (spells : Spells item text)
    (enough : 2 * text.length ≤ fuel) {rest : List Char} (ends : Ends rest) (more : List Char) :
    (skipSpace rest = ',' :: more →
      readMembers (fuel + 1) entries ((stringText key).toList ++ (spacing.key.toList ++ (text ++ rest))) =
        readMembers fuel (Value.insert entries (.string key) item) (skipSpace more)) ∧
    (skipSpace rest = '\x7d' :: more →
      readMembers (fuel + 1) entries ((stringText key).toList ++ (spacing.key.toList ++ (text ++ rest))) =
        some (Value.insert entries (.string key) item, more)) := by
  obtain ⟨blanks, mark, blank⟩ := proper.key
  have colon : ∀ cs, skipSpace (':' :: cs) = ':' :: cs := fun _ => rfl
  rw [string_text, mark]
  simp only [List.cons_append, List.append_assoc, List.nil_append]
  rw [readMembers, read_text_written]
  simp only [colon, skip_space_blanks blank, skip_space_of_opens spells.opens,
    spells.read fuel rest enough ends, String.ofList_toList]
  constructor <;>
  · intro follows
    rw [follows]
    rfl

theorem members_written (proper : spacing.Proper) {members : List (String × Value)}
    (present : members ≠ []) (each : ∀ member ∈ members, Written spacing member.2) :
    ∃ body, writeEntries? spacing (keyed members) = some body ∧ Opens body.toList ∧
      ∀ fuel before rest, (Table.keys (before ++ members)).Nodup →
        2 * body.toList.length + 1 ≤ fuel →
          readMembers fuel (keyed before) (body.toList ++ '\x7d' :: rest) =
            some (keyed (before ++ members), rest) := by
  obtain ⟨blanks, mark, blank⟩ := proper.item
  have added : ∀ {before others : List (String × Value)} {key item},
      (Table.keys (before ++ (key, item) :: others)).Nodup →
        Value.insert (keyed before) (.string key) item = keyed (before ++ [(key, item)]) := by
    intro before others key item distinct
    simp only [Table.keys, List.map_append, List.map_cons] at distinct
    have new : key ∉ Table.keys before := fun known =>
      (List.nodup_append.mp distinct).2.2 key known key (List.mem_cons_self ..) rfl
    rw [insert_keyed (List.nodup_append.mp distinct).1, Table.insert_of_not_mem new]
  induction members with
  | nil => exact absurd rfl present
  | cons member others ih =>
    obtain ⟨key, item⟩ := member
    obtain ⟨text, written, spells⟩ := each _ (List.mem_cons_self ..)
    have quote : ∀ tail, Opens ((stringText key).toList ++ tail) := fun tail => by
      rw [string_text]
      exact ⟨'"', _, rfl, rfl, by decide, by decide⟩
    cases others with
    | nil =>
      refine ⟨stringText key ++ spacing.key ++ text, ?_, ?_, fun fuel before rest distinct enough => ?_⟩
      · change writeEntries? spacing [(.string key, item)] = _
        rw [write_entries_one]
        dsimp only at written
        rw [written]
        rfl
      · rw [String.toList_append, String.toList_append, List.append_assoc]
        exact quote _
      · simp only [String.toList_append, List.length_append] at enough
        obtain ⟨fuel, rfl⟩ := Nat.exists_eq_add_one.mpr (show 0 < fuel by omega)
        simp only [String.toList_append, List.append_assoc]
        rw [(read_member proper spells (by omega) (.cons rfl) _).2 rfl, added distinct]
    | cons next others =>
      obtain ⟨body, written', opens, read⟩ :=
        ih (List.cons_ne_nil _ _) fun other member => each other (List.mem_cons_of_mem _ member)
      refine ⟨stringText key ++ spacing.key ++ text ++ spacing.item ++ body, ?_, ?_,
        fun fuel before rest distinct enough => ?_⟩
      · obtain ⟨key', item'⟩ := next
        change writeEntries? spacing
          ((.string key, item) :: (.string key', item') :: keyed others) = _
        rw [write_entries_cons]
        change (write? spacing item >>= fun item =>
          writeEntries? spacing (keyed ((key', item') :: others)) >>= fun others =>
            some (stringText key ++ spacing.key ++ item ++ spacing.item ++ others)) = _
        dsimp only at written
        rw [written, written']
        rfl
      · simp only [String.toList_append, List.append_assoc]
        exact quote _
      · simp only [String.toList_append, mark, List.length_append, List.length_cons] at enough
        obtain ⟨fuel, rfl⟩ := Nat.exists_eq_add_one.mpr (show 0 < fuel by omega)
        simp only [String.toList_append, mark, List.append_assoc, List.cons_append]
        rw [(read_member proper spells (by omega) (.cons rfl) _).1 rfl, added distinct,
          skip_space_blanks blank, skip_space_of_opens opens, read fuel _ rest (by simpa using distinct) (by omega)]
        simp

theorem written_of_legible (proper : spacing.Proper) {value : Value} (legible : Legible value) :
    Written spacing value := by
  induction legible with
  | null => exact ⟨"null", rfl, ⟨'n', _, rfl, rfl, by decide, by decide⟩, fun fuel rest enough _ => by
      obtain ⟨fuel, rfl⟩ := Nat.exists_eq_add_one.mpr (show 0 < fuel by simp at enough; omega)
      rfl⟩
  | @bool b =>
    cases b with
    | true => exact ⟨"true", rfl, ⟨'t', _, rfl, rfl, by decide, by decide⟩, fun fuel rest enough _ => by
        obtain ⟨fuel, rfl⟩ := Nat.exists_eq_add_one.mpr (show 0 < fuel by simp at enough; omega)
        rfl⟩
    | false => exact ⟨"false", rfl, ⟨'f', _, rfl, rfl, by decide, by decide⟩, fun fuel rest enough _ => by
        obtain ⟨fuel, rfl⟩ := Nat.exists_eq_add_one.mpr (show 0 < fuel by simp at enough; omega)
        rfl⟩
  | @int n short =>
    refine ⟨toString n, ?_, spells_int short⟩
    simp only [write?, intText?, short]
    rfl
  | @float x canonical => exact ⟨floatText x, rfl, spells_float canonical⟩
  | @string text => exact ⟨stringText text, rfl, spells_string text⟩
  | @list items each ih =>
    cases items with
    | nil =>
      refine ⟨"[]", rfl, ⟨'[', _, rfl, rfl, by decide, by decide⟩, fun fuel rest enough _ => ?_⟩
      obtain ⟨fuel, rfl⟩ := Nat.exists_eq_add_one.mpr (show 0 < fuel by simp at enough; omega)
      rfl
    | cons item others =>
      obtain ⟨body, written, opens, read⟩ := items_written proper (List.cons_ne_nil _ _) ih
      refine ⟨"[" ++ body ++ "]", by rw [write?, written]; rfl, ?_⟩
      have same : ("[" ++ body ++ "]").toList = '[' :: body.toList ++ [']'] := by
        simp [String.toList_append]
      rw [same]
      refine ⟨⟨'[', _, rfl, rfl, by decide, by decide⟩, fun fuel rest enough _ => ?_⟩
      simp only [List.length_append, List.length_cons, List.length_nil] at enough
      obtain ⟨fuel, rfl⟩ := Nat.exists_eq_add_one.mpr (show 0 < fuel by omega)
      simp only [List.cons_append, List.append_assoc, List.nil_append]
      rw [readValue, skip_space_of_opens opens]
      obtain ⟨c, behind, first, _, other, _⟩ := opens
      split
      · next ending =>
        rw [first] at ending
        cases ending
        exact absurd rfl other
      · rw [read fuel rest (by omega)]
        rfl
  | @mapping members distinct each ih =>
    cases members with
    | nil =>
      refine ⟨"\x7b\x7d", rfl, ⟨'\x7b', _, rfl, rfl, by decide, by decide⟩, fun fuel rest enough _ => ?_⟩
      obtain ⟨fuel, rfl⟩ := Nat.exists_eq_add_one.mpr (show 0 < fuel by simp at enough; omega)
      rfl
    | cons member others =>
      obtain ⟨body, written, opens, read⟩ := members_written proper (List.cons_ne_nil _ _) ih
      refine ⟨"\x7b" ++ body ++ "\x7d", by rw [write?, written]; rfl, ?_⟩
      have same : ("\x7b" ++ body ++ "\x7d").toList = '\x7b' :: body.toList ++ ['\x7d'] := by
        simp [String.toList_append]
      rw [same]
      refine ⟨⟨'\x7b', _, rfl, rfl, by decide, by decide⟩, fun fuel rest enough _ => ?_⟩
      simp only [List.length_append, List.length_cons, List.length_nil] at enough
      obtain ⟨fuel, rfl⟩ := Nat.exists_eq_add_one.mpr (show 0 < fuel by omega)
      simp only [List.cons_append, List.append_assoc, List.nil_append]
      rw [readValue, skip_space_of_opens opens]
      obtain ⟨c, behind, first, _, _, other⟩ := opens
      split
      · next ending =>
        rw [first] at ending
        cases ending
        exact absurd rfl other
      · have all : readMembers fuel [] (body.toList ++ '\x7d' :: rest) =
            some (keyed (member :: others), rest) := read fuel [] rest distinct (by omega)
        rw [all]
        rfl

end Parts

def Present (text : List Char) : Prop := ∃ c rest, text = c :: rest ∧ isSpace c = false ∧ c ≠ 'n'

theorem present_digit {c : Char} (digit : isDigit c = true) (rest : List Char) : Present (c :: rest) := by
  obtain ⟨d, tail, same, shown, _⟩ := opens_digit digit rest
  cases same
  refine ⟨c, rest, rfl, shown, ?_⟩
  rintro rfl
  cases digit

theorem present_int (n : Int) : Present (toString n).toList := by
  obtain ⟨c, rest, same, digit⟩ := (whole_digits_of n.natAbs).first
  rw [int_text, same]
  split
  · exact ⟨'-', _, rfl, rfl, by decide⟩
  · exact present_digit digit rest

theorem present_float (x : Binary64) : Present (floatText x).toList := by
  cases x with
  | nan => exact ⟨'N', _, rfl, rfl, by decide⟩
  | infinity negative =>
    cases negative with
    | true => exact ⟨'-', _, rfl, rfl, by decide⟩
    | false => exact ⟨'I', _, rfl, rfl, by decide⟩
  | finite negative mantissa exponent =>
    obtain ⟨c, rest, same, digit⟩ := Shortest.layout_first (Shortest.decimal mantissa exponent).1
      (Shortest.decimal mantissa exponent).2
    have sign : (if negative then "-" else "").toList = if negative then ['-'] else [] := by
      cases negative <;> rfl
    have behind : ∀ {d : Char} (others : List Char), isDigit d = true →
        Present ((if negative then ['-'] else []) ++ d :: others) := by
      intro d others digit
      cases negative with
      | true => exact ⟨'-', _, rfl, rfl, by decide⟩
      | false => exact present_digit digit others
    unfold floatText Binary64.text
    dsimp only
    split
    · rw [String.toList_append, sign]
      exact behind _ rfl
    · rw [String.toList_append, sign, same]
      exact behind _ digit

theorem present_of_write {spacing : Spacing} {value : Value} {text : String}
    (written : write? spacing value = some text) : value = .null ∨ Present text.toList := by
  cases value with
  | null => exact .inl rfl
  | bool b => cases b <;> cases written <;> exact .inr ⟨_, _, rfl, rfl, by decide⟩
  | int n =>
    simp only [write?, intText?] at written
    split at written
    · cases written
    · cases written
      exact .inr (present_int n)
  | float x =>
    cases written
    exact .inr (present_float x)
  | string body =>
    cases written
    rw [string_text]
    exact .inr ⟨'"', _, rfl, rfl, by decide⟩
  | list items | tuple items =>
    obtain ⟨body, _, rfl⟩ := Option.map_eq_some_iff.mp written
    exact .inr ⟨'[', _, by simp [String.toList_append]; rfl, rfl, by decide⟩
  | mapping entries =>
    obtain ⟨body, _, rfl⟩ := Option.map_eq_some_iff.mp written
    exact .inr ⟨'\x7b', _, by simp [String.toList_append]; rfl, rfl, by decide⟩
  | _ => cases written

theorem read_number_ne_null {negative : Bool} {cs rest : List Char} :
    readNumber negative cs ≠ some (.null, rest) := by
  unfold readNumber
  dsimp only
  repeat' split
  all_goals nofun

theorem starts_of_read_null {fuel : Nat} {cs rest : List Char}
    (read : readValue fuel cs = some (.null, rest)) : ∃ others, cs = 'n' :: others := by
  cases fuel with
  | zero => cases read
  | succ fuel =>
    unfold readValue at read
    split at read
    case h_4 others => exact ⟨_, rfl⟩
    case h_2 =>
      split at read
      · cases read
      · obtain ⟨_, _, same⟩ := Option.map_eq_some_iff.mp read
        cases same
    case h_3 =>
      split at read
      · cases read
      · obtain ⟨_, _, same⟩ := Option.map_eq_some_iff.mp read
        cases same
    case h_1 =>
      obtain ⟨_, _, same⟩ := Option.map_eq_some_iff.mp read
      cases same
    all_goals
      first
      | exact absurd read read_number_ne_null
      | cases read

theorem read_write {spacing : Spacing} (proper : spacing.Proper) {value : Value}
    (legible : Legible value) : ∃ text, write? spacing value = some text ∧ read? text = some value := by
  obtain ⟨text, written, spells⟩ := written_of_legible proper legible
  refine ⟨text, written, ?_⟩
  have shown := skip_space_of_opens spells.opens []
  rw [List.append_nil] at shown
  have read := spells.read (2 * text.toList.length + 2) [] (by omega) .nil
  rw [List.append_nil] at read
  unfold read?
  simp only [shown, read]
  rfl

end ApiSchema.Json

namespace ApiSchema.Codec

theorem json_form_stable {value form : Value} (made : jsonForm? value = some form) :
    jsonForm? form = some form := by
  obtain ⟨_, _, read⟩ := Option.bind_eq_some_iff.mp made
  obtain ⟨text, written, again⟩ := Json.read_write Json.Spacing.proper_wide (Json.legible_of_read? read)
  rw [jsonForm?, written]
  exact again

theorem null_of_json_form {value : Value} (made : jsonForm? value = some .null) : value = .null := by
  obtain ⟨text, written, read⟩ := Option.bind_eq_some_iff.mp made
  rcases Json.present_of_write written with null | ⟨c, rest, same, shown, other⟩
  · exact null
  · have trimmed : Json.skipSpace text.toList = c :: rest := by
      rw [same, Json.skipSpace, List.dropWhile_cons_of_neg (by simp [shown])]
    unfold Json.read? at read
    simp only [trimmed] at read
    split at read
    · next value _ found =>
      split at read
      · cases read
        obtain ⟨_, start⟩ := Json.starts_of_read_null found
        cases start
        exact absurd rfl other
      · cases read
    · cases read

end ApiSchema.Codec

/-! What is written as JSON text: any value that JSON has a form for, unless a number in it is too
long. -/

namespace ApiSchema

namespace Value

def isJson : Value → Bool
  | null | bool _ | int _ | float _ | string _ | list _ => true
  | mapping entries => entries.all fun (key, _) => key.isString
  | _ => false

def IsJson (value : Value) : Prop := ∀ part ∈ value.parts, part.isJson = true

def HasLong (value : Value) : Prop :=
  ∃ n, .int n ∈ value.parts ∧ exceedsDigitLimit (digitsOf n.natAbs).length = true

theorem IsJson.of_parts {value part : Value} (json : value.IsJson) (inside : part.parts ⊆ value.parts) :
    part.IsJson := fun other member => json other (inside member)

theorem IsJson.item {items : List Value} (json : (Value.list items).IsJson) {item : Value}
    (member : item ∈ items) : item.IsJson :=
  json.of_parts fun _ inside => List.mem_cons_of_mem _ (parts_of_item member inside)

theorem IsJson.null : Value.null.IsJson := by
  intro part member
  rw [List.mem_singleton.mp member]
  rfl

theorem IsJson.entry {entries : List (Value × Value)} (json : (Value.mapping entries).IsJson)
    (key : Value) : ((get? entries key).getD .null).IsJson := by
  cases found : get? entries key with
  | none => exact .null
  | some item =>
    obtain ⟨k, member⟩ := mem_of_get? found
    exact json.of_parts fun _ inside => List.mem_cons_of_mem _ (parts_of_entry member inside)

end Value

namespace Json

open Value (partsOfItems partsOfEntries)

variable {spacing : Spacing}

theorem write_items_cons_some {item : Value} {rest : List Value}
    (own : (write? spacing item).isSome) (others : (writeItems? spacing rest).isSome) :
    (writeItems? spacing (item :: rest)).isSome := by
  obtain ⟨text, own⟩ := Option.isSome_iff_exists.mp own
  obtain ⟨texts, others⟩ := Option.isSome_iff_exists.mp others
  cases rest with
  | nil => simp [writeItems?, own]
  | cons next rest => simp [writeItems?, own, others]

theorem write_entries_cons_some {name : String} {item : Value} {rest : List (Value × Value)}
    (own : (write? spacing item).isSome) (others : (writeEntries? spacing rest).isSome) :
    (writeEntries? spacing ((.string name, item) :: rest)).isSome := by
  obtain ⟨text, own⟩ := Option.isSome_iff_exists.mp own
  obtain ⟨texts, others⟩ := Option.isSome_iff_exists.mp others
  cases rest with
  | nil => simp [writeEntries?, keyText?, own]
  | cons next rest => simp [writeEntries?, keyText?, own, others]

mutual

theorem write_some : (value : Value) → value.IsJson → ¬ value.HasLong →
    (write? spacing value).isSome
  | .null, _, _ | .bool _, _, _ | .float _, _, _ | .string _, _, _ => rfl
  | .int n, _, short => by
    have fits : exceedsDigitLimit (digitsOf n.natAbs).length = false := by
      rw [← Bool.not_eq_true]
      exact fun long => short ⟨n, List.mem_singleton_self _, long⟩
    simp [write?, intText?, fits]
  | .list items, json, short => by
    have written := write_items_some items
      (fun part member => json part (List.mem_cons_of_mem _ member))
      fun n member long => short ⟨n, List.mem_cons_of_mem _ member, long⟩
    simpa [write?] using written
  | .mapping entries, json, short => by
    have keys := json _ (List.mem_cons_self ..)
    have written := write_entries_some entries
      (fun entry member => List.all_eq_true.mp keys entry member)
      (fun part member => json part (List.mem_cons_of_mem _ member))
      fun n member long => short ⟨n, List.mem_cons_of_mem _ member, long⟩
    simpa [write?] using written
  | .tuple items, json, _ => by cases json _ (List.mem_cons_self ..)
  | .bytes _, json, _ | .buffer _, json, _ | .decimal _, json, _ | .date _, json, _
  | .timestamp _, json, _ => by cases json _ (List.mem_singleton_self _)

theorem write_items_some : (items : List Value) →
    (∀ part ∈ partsOfItems items, part.isJson = true) →
    (∀ n, .int n ∈ partsOfItems items →
      ¬ exceedsDigitLimit (digitsOf n.natAbs).length = true) →
    (writeItems? spacing items).isSome
  | [], _, _ => rfl
  | item :: rest, json, short => by
    have own := write_some item (fun part member => json part (List.mem_append_left _ member))
      fun ⟨n, member, long⟩ => short n (List.mem_append_left _ member) long
    have others := write_items_some rest
      (fun part member => json part (List.mem_append_right _ member))
      fun n member => short n (List.mem_append_right _ member)
    exact write_items_cons_some own others

theorem write_entries_some : (entries : List (Value × Value)) →
    (∀ entry ∈ entries, entry.1.isString = true) →
    (∀ part ∈ partsOfEntries entries, part.isJson = true) →
    (∀ n, .int n ∈ partsOfEntries entries →
      ¬ exceedsDigitLimit (digitsOf n.natAbs).length = true) →
    (writeEntries? spacing entries).isSome
  | [], _, _, _ => rfl
  | (key, item) :: rest, keys, json, short => by
    have own := write_some item (fun part member => json part (List.mem_append_left _ member))
      fun ⟨n, member, long⟩ => short n (List.mem_append_left _ member) long
    have others := write_entries_some rest
      (fun entry member => keys entry (List.mem_cons_of_mem _ member))
      (fun part member => json part (List.mem_append_right _ member))
      fun n member => short n (List.mem_append_right _ member)
    have text := keys _ (List.mem_cons_self ..)
    cases key with
    | string name => exact write_entries_cons_some own others
    | _ => cases text

end

end Json

theorem Value.described_some {value : Value} (json : value.IsJson) (short : ¬ value.HasLong) :
    value.described?.isSome := by
  have written : (Json.write? .wide value).isSome := Json.write_some value json short
  obtain ⟨text, written⟩ := Option.isSome_iff_exists.mp written
  simp [described?, written]

end ApiSchema
