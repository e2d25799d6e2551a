import ApiSchema.Proofs.Calendar.Timestamp

/-! The texts that are read as dates and times, and what each of them stands for. -/

namespace ApiSchema

namespace Date

theorem text_of_fields {text : List Char} {d : Date} (read : fields? text = some d) :
    d.text.toList = text := by
  revert read
  fun_cases fields? text with
  | case1 a b c d e f g h digits =>
    intro read
    rw [← Option.some.inj read]
    simp only [List.all_cons, List.all_nil, Bool.and_true, Bool.and_eq_true] at digits
    have year : paddedDigits 4 (digitsValue [a, b, c, d]) = [a, b, c, d] :=
      padded_of_digits rfl (by decide) (by simp [digits])
    have month : paddedDigits 2 (digitsValue [e, f]) = [e, f] :=
      padded_of_digits rfl (by decide) (by simp [digits])
    have day : paddedDigits 2 (digitsValue [g, h]) = [g, h] :=
      padded_of_digits rfl (by decide) (by simp [digits])
    simp [Date.text, padded, year, month, day]
  | _ =>
    intro read
    cases read

end Date

namespace Timestamp

inductive FractionText : String → Nat → Prop where
  | whole : FractionText "" 0
  | digits {digits : List Char} (present : digits ≠ []) (short : digits.length ≤ 6)
    (all : digits.all isDigit = true) :
    FractionText ("." ++ String.ofList digits) (digitsValue digits * 10 ^ (6 - digits.length))

/-- An optional zone, with an offset of some hours and minutes, and the seconds that it is ahead of
universal time. -/
inductive ZoneText (Offset : (hours minutes : Nat) → Prop) : String → Option Int → Prop where
  | unzoned : ZoneText Offset "" none
  | universal : ZoneText Offset "Z" (some 0)
  | ahead {hours minutes : Nat} (offset : Offset hours minutes) :
    ZoneText Offset ("+" ++ padded 2 hours ++ ":" ++ padded 2 minutes)
      (some ((hours * 60 + minutes) * 60))
  | behind {hours minutes : Nat} (offset : Offset hours minutes) :
    ZoneText Offset ("-" ++ padded 2 hours ++ ":" ++ padded 2 minutes)
      (some (-((hours * 60 + minutes) * 60)))

/-- A day of the calendar, a time of the day, and optionally a fraction and a zone. -/
structure Spells (Offset : (hours minutes : Nat) → Prop) (text : String) (t : Timestamp) : Prop where
  day : t.date.isValid = true
  clock : t.hour < 24 ∧ t.minute < 60 ∧ t.second < 60
  written : ∃ fraction zone, FractionText fraction t.microsecond ∧ ZoneText Offset zone t.offset ∧
    text = t.date.text ++ "T" ++ t.clockText ++ fraction ++ zone

/-- Offsets as the standard has them. -/
def ClockOffset (hours minutes : Nat) : Prop := hours < 24 ∧ minutes < 60

/-- Offsets as they are read: the minutes may carry into the hours. -/
def CarryingOffset (hours minutes : Nat) : Prop := hours * 60 + minutes < 24 * 60 ∧ minutes < 70

variable {t : Timestamp} {Offset Other : (hours minutes : Nat) → Prop} {text : String}

theorem fraction_iff {digits : List Char} {n : Nat} : fraction? digits = some n ↔
    digits ≠ [] ∧ digits.length ≤ 6 ∧ digits.all isDigit = true ∧
      n = digitsValue digits * 10 ^ (6 - digits.length) := by
  simp only [fraction?, Option.ite_none_right_eq_some, Bool.and_eq_true, decide_eq_true_eq,
    Option.some.injEq, digits_value_append_nulls, ← List.length_pos_iff]
  constructor
  · rintro ⟨⟨⟨all, present⟩, short⟩, rfl⟩
    exact ⟨present, short, all, rfl⟩
  · rintro ⟨present, short, all, rfl⟩
    exact ⟨⟨⟨all, present⟩, short⟩, rfl⟩

theorem fraction_small {fraction : String} {n : Nat} (written : FractionText fraction n) :
    n < 1000000 := by
  cases written with
  | whole => decide
  | @digits digits present short all =>
    have few := digits_value_lt all
    calc digitsValue digits * 10 ^ (6 - digits.length)
        < 10 ^ digits.length * 10 ^ (6 - digits.length) :=
          Nat.mul_lt_mul_of_pos_right few (Nat.pow_pos (by decide))
      _ = 10 ^ 6 := by rw [← Nat.pow_add, Nat.add_sub_cancel' short]

theorem ZoneText.mono {zone : String} {offset : Option Int}
    (wider : ∀ {hours minutes}, Offset hours minutes → Other hours minutes)
    (written : ZoneText Offset zone offset) : ZoneText Other zone offset := by
  cases written with
  | unzoned => exact .unzoned
  | universal => exact .universal
  | ahead offset => exact .ahead (wider offset)
  | behind offset => exact .behind (wider offset)

theorem Spells.mono (wider : ∀ {hours minutes}, Offset hours minutes → Other hours minutes)
    (spells : Spells Offset text t) : Spells Other text t := by
  obtain ⟨day, clock, fraction, zone, part, place, written⟩ := spells
  exact ⟨day, clock, fraction, zone, part, place.mono wider, written⟩

theorem carrying_of_clock {hours minutes : Nat} (offset : ClockOffset hours minutes) :
    CarryingOffset hours minutes := by
  unfold ClockOffset at offset
  unfold CarryingOffset
  omega

theorem zone_apart {zone : String} {offset : Option Int} (written : ZoneText Offset zone offset) :
    zone.toList.head?.all (fun c => !isDigit c && c != '.') = true := by
  cases written with
  | unzoned => rfl
  | universal => rfl
  | ahead | behind =>
    simp only [String.toList_append]
    rfl

theorem tens_lt {c d : Char} (digit : isDigit c = true) (digit' : isDigit d = true) :
    c < '7' ↔ digitsValue [c, d] < 70 := by
  have value : digitsValue [c, d] = 10 * digitValue c + digitValue d := by simp [digitsValue]
  have units := digit_value_le digit'
  have least : 48 ≤ c.toNat := is_digit_least digit
  have order : c < '7' ↔ c.toNat < 55 := Iff.rfl
  have zero : '0'.toNat = 48 := rfl
  rw [value, order]
  unfold digitValue at units ⊢
  omega

theorem exists_digits {hours minutes : Nat} (offset : CarryingOffset hours minutes) :
    ∃ a b c d, paddedDigits 2 hours = [a, b] ∧ paddedDigits 2 minutes = [c, d] ∧
      ([a, b, c, d].all isDigit = true ∧ c < '7') ∧
        digitsValue [a, b] = hours ∧ digitsValue [c, d] = minutes := by
  obtain ⟨short, few⟩ := offset
  obtain ⟨a, b, hour, first, second, same⟩ := padded_two (n := hours) (by omega)
  obtain ⟨c, d, minute, third, fourth, same'⟩ := padded_two (n := minutes) (by omega)
  have small := (tens_lt third fourth).mpr (same' ▸ few)
  exact ⟨a, b, c, d, hour, minute, ⟨by simp [first, second, third, fourth], small⟩, same, same'⟩

theorem zone_of_text {zone : String} {offset : Option Int}
    (written : ZoneText CarryingOffset zone offset) : zone? zone.toList = some offset := by
  cases written with
  | unzoned => rfl
  | universal => rfl
  | ahead offset =>
    obtain ⟨a, b, c, d, hour, minute, digits, same, same'⟩ := exists_digits offset
    simp [zone?, padded, hour, minute, digits, same, same']
  | behind offset =>
    obtain ⟨a, b, c, d, hour, minute, digits, same, same'⟩ := exists_digits offset
    simp [zone?, padded, hour, minute, digits, same, same']

theorem text_of_zone {zone : List Char} {offset : Option Int} (read : zone? zone = some offset)
    (near : offset.all (fun o => -secondsPerDay < o && o < secondsPerDay) = true) :
    ZoneText CarryingOffset (String.ofList zone) offset := by
  revert read
  fun_cases zone? zone with
  | case1 =>
    rintro ⟨⟩
    exact .unzoned
  | case2 =>
    rintro ⟨⟩
    exact .universal
  | case3 sign a b c d given seconds =>
    intro read
    obtain ⟨signed, digits, small⟩ := given
    simp only [List.all_cons, List.all_nil, Bool.and_true, Bool.and_eq_true] at digits
    have hour : paddedDigits 2 (digitsValue [a, b]) = [a, b] :=
      padded_of_digits rfl (by decide) (by simp [digits])
    have minute : paddedDigits 2 (digitsValue [c, d]) = [c, d] :=
      padded_of_digits rfl (by decide) (by simp [digits])
    have few := (tens_lt digits.2.2.1 digits.2.2.2).mp small
    have spelled (sign : Char) :
        String.singleton sign ++ padded 2 (digitsValue [a, b]) ++ ":" ++
          padded 2 (digitsValue [c, d]) = String.ofList [sign, a, b, ':', c, d] := by
      apply String.toList_inj.mp
      simp [padded, hour, minute]
    rw [← Option.some.inj read] at near ⊢
    simp only [Option.all_some, Bool.and_eq_true, decide_eq_true_eq] at near
    unfold secondsPerDay at near
    rw [← spelled]
    rcases signed with rfl | rfl
    · rw [if_neg (by decide)] at near ⊢
      exact .ahead ⟨by omega, few⟩
    · rw [if_pos rfl] at near ⊢
      exact .behind ⟨by omega, few⟩
  | _ =>
    intro read
    cases read

theorem near_some {offset : Int} (after : -86400 < offset) (before : offset < 86400) :
    (some offset).all (fun o => -secondsPerDay < o && o < secondsPerDay) = true := by
  simp [secondsPerDay, after, before]

theorem zone_near {zone : String} {offset : Option Int}
    (written : ZoneText CarryingOffset zone offset) :
    offset.all (fun o => -secondsPerDay < o && o < secondsPerDay) = true := by
  cases written with
  | unzoned => rfl
  | universal => rfl
  | ahead offset | behind offset =>
    obtain ⟨short, _⟩ := offset
    exact near_some (by omega) (by omega)

theorem Spells.valid (spells : Spells CarryingOffset text t) : t.isValid = true := by
  obtain ⟨day, ⟨hours, minutes, seconds⟩, fraction, zone, part, place, _⟩ := spells
  exact is_valid_iff.mpr ⟨day, ⟨hours, minutes, seconds, fraction_small part⟩, zone_near place⟩

theorem fraction_apart {digits zone : List Char} (all : digits.all isDigit = true)
    (apart : zone.head?.all (fun c => !isDigit c && c != '.') = true) :
    (digits ++ zone).takeWhile isDigit = digits ∧ (digits ++ zone).dropWhile isDigit = zone := by
  have each := List.all_eq_true.mp all
  rw [List.takeWhile_append_of_pos each, List.dropWhile_append_of_pos each]
  cases zone with
  | nil => simp
  | cons c zone =>
    simp only [List.head?_cons, Option.all_some, Bool.and_eq_true, Bool.not_eq_true'] at apart
    simp [apart.1]

theorem fields_of_spells (spells : Spells CarryingOffset text t) :
    fields? text.toList = some t := by
  obtain ⟨date, h, m, s, microsecond, offset⟩ := t
  obtain ⟨day, ⟨hours, minutes, seconds⟩, fraction, zone, part, place, rfl⟩ := spells
  dsimp only at hours minutes seconds part place day
  obtain ⟨a, b, hour, first, second, same⟩ := padded_two (n := h) (by omega)
  obtain ⟨c, d, minute, third, fourth, same'⟩ := padded_two (n := m) (by omega)
  obtain ⟨e, f, sec, fifth, sixth, same''⟩ := padded_two (n := s) (by omega)
  have length := Date.text_length day
  have read := zone_of_text place
  have apart := zone_apart place
  have written : (date.text ++ "T" ++ clockText ⟨date, h, m, s, microsecond, offset⟩ ++ fraction
      ++ zone).toList = date.text.toList ++
        'T' :: a :: b :: ':' :: c :: d :: ':' :: e :: f :: (fraction.toList ++ zone.toList) := by
    simp [clockText, padded, hour, minute, sec]
  unfold fields?
  rw [written, List.take_left' length, List.drop_left' length, Date.fields_of_text day]
  generalize zone.toList = zone at read apart
  simp only [List.all_cons, List.all_nil, Bool.and_true, first, second, third, fourth, fifth, sixth,
    if_true, same, same', same'']
  cases part with
  | whole =>
    cases zone with
    | nil => simp [read]
    | cons c zone =>
      simp only [List.head?_cons, Option.all_some, Bool.and_eq_true, bne_iff_ne] at apart
      simp [read, apart.2]
  | digits present short all =>
    obtain ⟨taken, left⟩ := fraction_apart all apart
    have part := fraction_iff.mpr ⟨present, short, all, rfl⟩
    simp [taken, left, part, read]

theorem spells_of_fields (read : fields? text.toList = some t) (valid : t.isValid = true) :
    Spells CarryingOffset text t := by
  obtain ⟨day, ⟨hours, minutes, seconds, _⟩, near⟩ := is_valid_iff.mp valid
  refine ⟨day, ⟨hours, minutes, seconds⟩, ?_⟩
  unfold fields? at read
  split at read
  · next date a b c d e f rest front back =>
    obtain ⟨digits, read⟩ := Option.ite_none_right_eq_some.mp read
    simp only [List.all_cons, List.all_nil, Bool.and_true, Bool.and_eq_true] at digits
    have hour : paddedDigits 2 (digitsValue [a, b]) = [a, b] :=
      padded_of_digits rfl (by decide) (by simp [digits])
    have minute : paddedDigits 2 (digitsValue [c, d]) = [c, d] :=
      padded_of_digits rfl (by decide) (by simp [digits])
    have second : paddedDigits 2 (digitsValue [e, f]) = [e, f] :=
      padded_of_digits rfl (by decide) (by simp [digits])
    have whole : text.toList = date.text.toList ++
        'T' :: a :: b :: ':' :: c :: d :: ':' :: e :: f :: rest := by
      rw [Date.text_of_fields front, ← back, List.take_append_drop]
    dsimp only at read
    split at read
    · next microsecond behind tail =>
      obtain ⟨offset, zone, same⟩ := Option.map_eq_some_iff.mp read
      subst same
      have place := text_of_zone zone near
      have part : ∃ fraction, FractionText fraction microsecond ∧
          rest = fraction.toList ++ behind := by
        split at tail
        · next digits =>
          obtain ⟨n, part, same⟩ := Option.map_eq_some_iff.mp tail
          cases same
          obtain ⟨present, short, all, rfl⟩ := fraction_iff.mp part
          exact ⟨_, .digits present short all, by simp [List.takeWhile_append_dropWhile]⟩
        · cases tail
          exact ⟨"", .whole, rfl⟩
      obtain ⟨fraction, part, apart⟩ := part
      refine ⟨fraction, _, part, place, String.toList_inj.mp ?_⟩
      simp [whole, clockText, padded, hour, minute, second, apart]
    · cases read
  · cases read

theorem of_text_iff : ofText? text.toList = some t ↔ Spells CarryingOffset text t := by
  rw [ofText?, Option.filter_eq_some_iff]
  exact ⟨fun read => spells_of_fields read.1 read.2,
    fun spells => ⟨fields_of_spells spells, spells.valid⟩⟩

theorem millisecond_spells (valid : t.isValid = true) :
    Spells CarryingOffset t.millisecondText t.truncated := by
  obtain ⟨day, ⟨hours, minutes, seconds, fraction⟩, _⟩ := is_valid_iff.mp valid
  have long : (paddedDigits 3 (t.microsecond / 1000)).length = 3 :=
    padded_digits_length 3 (by decide) (by omega)
  have part := FractionText.digits (padded_digits_ne_nil 3 (t.microsecond / 1000)) (by omega)
    (padded_digits_all ..)
  rw [long, padded_digits_value] at part
  refine ⟨day, ⟨hours, minutes, seconds⟩, _, "", part, .unzoned, ?_⟩
  simp [millisecondText, truncated, clockText, padded, String.append_assoc]

theorem of_text_millisecond_text (valid : t.isValid = true) :
    ofText? t.millisecondText.toList = some t.truncated :=
  of_text_iff.mpr (millisecond_spells valid)

end Timestamp

end ApiSchema
