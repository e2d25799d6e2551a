import ApiSchema.Calendar.Timestamp
import ApiSchema.Proofs.Number.Digits
import Mathlib.Data.List.Basic

/-! Dates are read back from their text, and the days of the calendar follow each other. -/

namespace ApiSchema

theorem padded_two {n : Nat} (small : n < 100) : ∃ a b, paddedDigits 2 n = [a, b] ∧
    isDigit a = true ∧ isDigit b = true ∧ digitsValue [a, b] = n := by
  obtain ⟨a, b, same⟩ := List.length_eq_two.mp (padded_digits_length 2 (by decide) small)
  have digits := padded_digits_all 2 n
  have value := padded_digits_value 2 n
  rw [same] at digits value
  simp only [List.all_cons, List.all_nil, Bool.and_true, Bool.and_eq_true] at digits
  exact ⟨a, b, same, digits.1, digits.2, value⟩

theorem padded_four {n : Nat} (small : n < 10000) : ∃ a b c d, paddedDigits 4 n = [a, b, c, d] ∧
    [a, b, c, d].all isDigit = true ∧ digitsValue [a, b, c, d] = n := by
  have length := padded_digits_length 4 (by decide) small
  have digits := padded_digits_all 4 n
  have value := padded_digits_value 4 n
  match paddedDigits 4 n, length, digits, value with
  | [a, b, c, d], _, digits, value => exact ⟨a, b, c, d, rfl, digits, value⟩

namespace Date

theorem is_valid_iff {d : Date} : d.isValid = true ↔
    (1 ≤ d.year ∧ d.year ≤ 9999) ∧ (1 ≤ d.month ∧ d.month ≤ 12) ∧
      1 ≤ d.day ∧ d.day ≤ daysIn d.year d.month := by
  simp only [isValid, Bool.and_eq_true, decide_eq_true_eq]
  tauto

theorem days_in_le (year month : Nat) : daysIn year month ≤ 31 := by
  unfold daysIn
  repeat' split
  all_goals omega

theorem days_in_pos (year month : Nat) : 28 ≤ daysIn year month := by
  unfold daysIn
  repeat' split
  all_goals omega

theorem fields_of_text {d : Date} (valid : d.isValid = true) : fields? d.text.toList = some d := by
  obtain ⟨⟨_, late⟩, ⟨_, last⟩, _, within⟩ := is_valid_iff.mp valid
  have days := days_in_le d.year d.month
  obtain ⟨a, b, c, e, year, digits, same⟩ := padded_four (n := d.year) (by omega)
  obtain ⟨f, g, month, first, second, same'⟩ := padded_two (n := d.month) (by omega)
  obtain ⟨h, i, day, third, fourth, same''⟩ := padded_two (n := d.day) (by omega)
  simp only [List.all_cons, List.all_nil, Bool.and_true, Bool.and_eq_true] at digits
  simp only [text, padded, String.toList_append, String.toList_ofList, year, month, day]
  simp [fields?, digits, first, second, third, fourth, same, same', same'']

theorem of_text_text {d : Date} (valid : d.isValid = true) : ofText? d.text.toList = some d := by
  rw [ofText?, fields_of_text valid]
  exact if_pos valid

theorem valid_of_text {text : List Char} {d : Date} (read : ofText? text = some d) :
    d.isValid = true := by
  unfold ofText? at read
  exact (Option.filter_eq_some_iff.mp read).2

theorem text_length {d : Date} (valid : d.isValid = true) : d.text.toList.length = 10 := by
  obtain ⟨⟨_, late⟩, ⟨_, last⟩, _, within⟩ := is_valid_iff.mp valid
  have days := days_in_le d.year d.month
  have year : (paddedDigits 4 d.year).length = 4 :=
    padded_digits_length 4 (by decide) (by omega)
  have month : (paddedDigits 2 d.month).length = 2 :=
    padded_digits_length 2 (by decide) (by omega)
  have day : (paddedDigits 2 d.day).length = 2 :=
    padded_digits_length 2 (by decide) (by omega)
  simp only [text, padded, String.toList_append, String.toList_ofList, List.length_append, year,
    month, day]
  rfl

theorem next_valid {d e : Date} (valid : d.isValid = true) (after : d.next? = some e) :
    e.isValid = true := by
  have shown := is_valid_iff.mp valid
  unfold next? at after
  split at after
  · cases after
    exact is_valid_iff.mpr (by dsimp only; omega)
  · split at after
    · cases after
      have days := days_in_pos d.year (d.month + 1)
      exact is_valid_iff.mpr (by dsimp only; omega)
    · split at after
      · cases after
        have days := days_in_pos (d.year + 1) 1
        exact is_valid_iff.mpr (by dsimp only; omega)
      · cases after

theorem previous_valid {d e : Date} (valid : d.isValid = true) (before : d.previous? = some e) :
    e.isValid = true := by
  have shown := is_valid_iff.mp valid
  unfold previous? at before
  split at before
  · cases before
    exact is_valid_iff.mpr (by dsimp only; omega)
  · split at before
    · cases before
      have days := days_in_pos d.year (d.month - 1)
      exact is_valid_iff.mpr (by dsimp only; omega)
    · split at before
      · cases before
        have december : daysIn (d.year - 1) 12 = 31 := rfl
        exact is_valid_iff.mpr (by dsimp only; omega)
      · cases before

end Date

end ApiSchema

/-! Times are moved to universal time within the calendar. -/

namespace ApiSchema

namespace Timestamp

theorem is_valid_iff {t : Timestamp} : t.isValid = true ↔ t.date.isValid = true ∧
    (t.hour < 24 ∧ t.minute < 60 ∧ t.second < 60 ∧ t.microsecond < 1000000) ∧
      t.offset.all (fun o => -secondsPerDay < o && o < secondsPerDay) = true := by
  simp only [isValid, Bool.and_eq_true, decide_eq_true_eq]
  tauto

theorem offset_near {t : Timestamp} (valid : t.isValid = true) :
    -86400 < t.offset.getD 0 ∧ t.offset.getD 0 < 86400 := by
  obtain ⟨_, _, zone⟩ := is_valid_iff.mp valid
  cases offset : t.offset with
  | none => decide
  | some o =>
    rw [offset] at zone
    simp only [Option.all_some, Bool.and_eq_true] at zone
    exact ⟨of_decide_eq_true zone.1, of_decide_eq_true zone.2⟩

theorem valid_with_day_seconds {t : Timestamp} {date : Date} {seconds : Nat}
    (day : date.isValid = true) (fraction : t.microsecond < 1000000) (within : seconds < 86400) :
    ({ t with offset := some 0 }.withDaySeconds date seconds).isValid = true :=
  is_valid_iff.mpr ⟨day, ⟨by dsimp only [withDaySeconds]; omega, by dsimp only [withDaySeconds]; omega,
    by dsimp only [withDaySeconds]; omega, fraction⟩, rfl⟩

theorem universal_valid {t u : Timestamp} (valid : t.isValid = true)
    (moved : t.toUniversal? = some u) : u.isValid = true ∧ u.offset = some 0 := by
  obtain ⟨day, ⟨hours, minutes, seconds, fraction⟩, _⟩ := is_valid_iff.mp valid
  have near := offset_near valid
  unfold toUniversal? daySeconds secondsPerDay at moved
  dsimp only at moved
  split at moved
  · obtain ⟨date, before, same⟩ := Option.map_eq_some_iff.mp moved
    subst same
    exact ⟨valid_with_day_seconds (Date.previous_valid day before) fraction (by omega), rfl⟩
  · split at moved
    · obtain ⟨date, after, same⟩ := Option.map_eq_some_iff.mp moved
      subst same
      exact ⟨valid_with_day_seconds (Date.next_valid day after) fraction (by omega), rfl⟩
    · cases moved
      exact ⟨valid_with_day_seconds day fraction (by omega), rfl⟩

theorem valid_of_text {text : List Char} {t : Timestamp} (read : ofText? text = some t) :
    t.isValid = true := by
  unfold ofText? at read
  exact (Option.filter_eq_some_iff.mp read).2

def truncated (t : Timestamp) : Timestamp :=
  { t with microsecond := t.microsecond / 1000 * 1000, offset := none }

theorem truncated_valid {t : Timestamp} (valid : t.isValid = true) : t.truncated.isValid = true := by
  obtain ⟨day, ⟨hours, minutes, seconds, fraction⟩, _⟩ := is_valid_iff.mp valid
  exact is_valid_iff.mpr ⟨day, ⟨hours, minutes, seconds, by dsimp only [truncated]; omega⟩, rfl⟩

end Timestamp

end ApiSchema
