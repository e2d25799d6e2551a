import ApiSchema.Proofs.Calendar.Timestamp
import Mathlib.Algebra.BigOperators.Intervals
import Mathlib.Algebra.Order.BigOperators.Group.Finset

/-! Days follow each other one by one, and an instant has one time in universal time, if it is within
the years of the calendar. -/

namespace ApiSchema

open Finset

namespace Date

def yearLength (year : Nat) : Nat := if isLeap year then 366 else 365

def daysBeforeYear (year : Nat) : Nat := ∑ y ∈ range year, yearLength y

def daysBeforeMonth (year month : Nat) : Nat := ∑ m ∈ Ico 1 month, daysIn year m

def daysBefore (d : Date) : Nat :=
  daysBeforeYear d.year + daysBeforeMonth d.year d.month + (d.day - 1)

variable {d e : Date} {year month : Nat}

theorem before_next_year (year : Nat) :
    daysBeforeYear (year + 1) = daysBeforeYear year + yearLength year :=
  sum_range_succ ..

theorem before_next_month (year : Nat) (positive : 1 ≤ month) :
    daysBeforeMonth year (month + 1) = daysBeforeMonth year month + daysIn year month :=
  sum_Ico_succ_top positive _

theorem before_year_mono {later : Nat} (le : year ≤ later) :
    daysBeforeYear year ≤ daysBeforeYear later :=
  sum_le_sum_of_subset (range_subset_range.mpr le)

theorem before_month_mono (year : Nat) {later : Nat} (le : month ≤ later) :
    daysBeforeMonth year month ≤ daysBeforeMonth year later :=
  sum_le_sum_of_subset (Ico_subset_Ico_right le)

theorem before_end_of_year (year : Nat) : daysBeforeMonth year 13 = yearLength year := by
  simp only [daysBeforeMonth, sum_Ico_eq_sum_range, sum_range_succ, range_zero, sum_empty, daysIn,
    yearLength]
  cases isLeap year <;> rfl

theorem before_next_month_le (year : Nat) (positive : 1 ≤ month) (le : month ≤ 12) :
    daysBeforeMonth year month + daysIn year month ≤ yearLength year := by
  rw [← before_next_month year positive, ← before_end_of_year]
  exact before_month_mono year (by omega)

theorem days_before_lt (valid : d.isValid = true) : daysBeforeYear d.year ≤ d.daysBefore ∧
    d.daysBefore < daysBeforeYear (d.year + 1) := by
  obtain ⟨_, ⟨first, last⟩, day, within⟩ := is_valid_iff.mp valid
  have room := before_next_month_le d.year first last
  rw [before_next_year, daysBefore]
  omega

theorem days_before_injective (valid : d.isValid = true) (valid' : e.isValid = true)
    (same : d.daysBefore = e.daysBefore) : d = e := by
  obtain ⟨_, ⟨first, _⟩, day, within⟩ := is_valid_iff.mp valid
  obtain ⟨_, ⟨first', _⟩, day', within'⟩ := is_valid_iff.mp valid'
  have bounds := days_before_lt valid
  have bounds' := days_before_lt valid'
  have year : d.year = e.year := by
    rcases Nat.lt_trichotomy d.year e.year with before | equal | after
    · have := before_year_mono (show d.year + 1 ≤ e.year from before)
      omega
    · exact equal
    · have := before_year_mono (show e.year + 1 ≤ d.year from after)
      omega
  unfold daysBefore at same
  rw [year] at same within
  have month : d.month = e.month := by
    rcases Nat.lt_trichotomy d.month e.month with before | equal | after
    · have := before_month_mono e.year (show d.month + 1 ≤ e.month from before)
      rw [before_next_month _ first] at this
      omega
    · exact equal
    · have := before_month_mono e.year (show e.month + 1 ≤ d.month from after)
      rw [before_next_month _ first'] at this
      omega
  rw [month] at same
  have last : d.day = e.day := by omega
  change Date.mk d.year d.month d.day = e
  rw [year, month, last]

theorem before_first_month (year : Nat) : daysBeforeMonth year 1 = 0 := rfl

theorem before_last_month (year : Nat) : daysBeforeMonth year 12 + 31 = yearLength year := by
  have december : daysIn year 12 = 31 := rfl
  have step : daysBeforeMonth year 13 = daysBeforeMonth year 12 + daysIn year 12 :=
    before_next_month year (by decide)
  rw [← before_end_of_year, step, december]

theorem next_days_before (valid : d.isValid = true) (after : d.next? = some e) :
    e.daysBefore = d.daysBefore + 1 := by
  obtain ⟨_, ⟨first, last⟩, day, within⟩ := is_valid_iff.mp valid
  unfold next? at after
  split at after
  · cases after
    dsimp only [daysBefore]
    omega
  · split at after
    · cases after
      dsimp only [daysBefore]
      rw [before_next_month _ first]
      omega
    · split at after
      · cases after
        have december : d.month = 12 := by omega
        have length : daysIn d.year d.month = 31 := by rw [december]; rfl
        have whole := before_last_month d.year
        dsimp only [daysBefore]
        rw [before_next_year, before_first_month, december]
        omega
      · cases after

theorem next_none (valid : d.isValid = true) (last : d.next? = none) :
    d.daysBefore + 1 = daysBeforeYear 10000 := by
  obtain ⟨⟨_, late⟩, ⟨first, end'⟩, day, within⟩ := is_valid_iff.mp valid
  unfold next? at last
  split at last
  · cases last
  · split at last
    · cases last
    · split at last
      · cases last
      · have year : d.year = 9999 := by omega
        have december : d.month = 12 := by omega
        have length : daysIn d.year d.month = 31 := by rw [december]; rfl
        have whole := before_last_month 9999
        have step : daysBeforeYear 10000 = daysBeforeYear 9999 + yearLength 9999 :=
          before_next_year 9999
        rw [daysBefore, year, december]
        omega

theorem previous_days_before (valid : d.isValid = true) (before : d.previous? = some e) :
    e.daysBefore + 1 = d.daysBefore := by
  obtain ⟨⟨early, _⟩, ⟨first, last⟩, day, within⟩ := is_valid_iff.mp valid
  unfold previous? at before
  split at before
  · cases before
    dsimp only [daysBefore]
    omega
  · split at before
    · cases before
      have days := days_in_pos d.year (d.month - 1)
      have step := before_next_month d.year (show 1 ≤ d.month - 1 by omega)
      rw [show d.month - 1 + 1 = d.month by omega] at step
      dsimp only [daysBefore]
      omega
    · split at before
      · cases before
        have january : d.month = 1 := by omega
        have whole := before_last_month (d.year - 1)
        have step := before_next_year (d.year - 1)
        rw [show d.year - 1 + 1 = d.year by omega] at step
        dsimp only [daysBefore]
        rw [january, before_first_month]
        omega
      · cases before

theorem previous_none (valid : d.isValid = true) (first : d.previous? = none) :
    d.daysBefore = daysBeforeYear 1 := by
  obtain ⟨⟨early, _⟩, ⟨_, _⟩, day, _⟩ := is_valid_iff.mp valid
  unfold previous? at first
  split at first
  · cases first
  · split at first
    · cases first
    · split at first
      · cases first
      · rw [daysBefore, show d.year = 1 by omega, show d.month = 1 by omega, before_first_month]
        omega

end Date

namespace Timestamp

open Date

/-- Microseconds from the start of the year 0 in universal time, which local time is taken as. -/
def instant (t : Timestamp) : Int :=
  (t.date.daysBefore * 86400 + t.daySeconds - t.offset.getD 0) * 1000000 + t.microsecond

def yearStart (year : Nat) : Int := daysBeforeYear year * 86400 * 1000000

/-- The instant is within the years of the calendar. -/
def InCalendar (t : Timestamp) : Prop := yearStart 1 ≤ t.instant ∧ t.instant < yearStart 10000

variable {t u : Timestamp}

theorem day_seconds_lt (valid : t.isValid = true) : 0 ≤ t.daySeconds ∧ t.daySeconds < 86400 := by
  obtain ⟨_, ⟨hours, minutes, seconds, _⟩, _⟩ := is_valid_iff.mp valid
  unfold daySeconds
  omega

theorem day_seconds_with (t : Timestamp) (date : Date) (seconds : Nat) :
    (t.withDaySeconds date seconds).daySeconds = seconds := by
  dsimp only [daySeconds, withDaySeconds]
  omega

theorem instant_with (t : Timestamp) (date : Date) (seconds : Nat) :
    ({ t with offset := some 0 }.withDaySeconds date seconds).instant =
      ((date.daysBefore * 86400 + seconds : Int) * 1000000 + t.microsecond) := by
  rw [instant, day_seconds_with]
  simp [withDaySeconds]

theorem universal_instant (valid : t.isValid = true) (moved : t.toUniversal? = some u) :
    u.instant = t.instant := by
  have day := (is_valid_iff.mp valid).1
  have near := offset_near valid
  have seconds := day_seconds_lt valid
  unfold toUniversal? secondsPerDay at moved
  dsimp only at moved
  split at moved
  · obtain ⟨date, before, rfl⟩ := Option.map_eq_some_iff.mp moved
    have step := previous_days_before day before
    rw [instant_with, instant]
    omega
  · split at moved
    · obtain ⟨date, after, rfl⟩ := Option.map_eq_some_iff.mp moved
      have step := next_days_before day after
      rw [instant_with, instant]
      omega
    · cases moved
      rw [instant_with, instant]
      omega

theorem instant_within (valid : t.isValid = true) (universal : t.offset = some 0) : t.InCalendar := by
  obtain ⟨day, ⟨_, _, _, fraction⟩, _⟩ := is_valid_iff.mp valid
  obtain ⟨⟨early, late⟩, _⟩ := Date.is_valid_iff.mp day
  have seconds := day_seconds_lt valid
  have bounds := days_before_lt day
  have first := before_year_mono early
  have last := before_year_mono (show t.date.year + 1 ≤ 10000 by omega)
  unfold InCalendar instant yearStart
  rw [universal, Option.getD_some]
  omega

theorem outside_of_none (valid : t.isValid = true) (outside : t.toUniversal? = none) :
    ¬ t.InCalendar := by
  obtain ⟨day, ⟨_, _, _, fraction⟩, _⟩ := is_valid_iff.mp valid
  unfold toUniversal? secondsPerDay at outside
  dsimp only at outside
  unfold InCalendar instant yearStart
  split at outside
  · have first := previous_none day (Option.map_eq_none_iff.mp outside)
    omega
  · split at outside
    · have last := next_none day (Option.map_eq_none_iff.mp outside)
      omega
    · cases outside

theorem instant_injective (valid : t.isValid = true) (universal : t.offset = some 0)
    (valid' : u.isValid = true) (universal' : u.offset = some 0) (same : t.instant = u.instant) :
    t = u := by
  obtain ⟨day, ⟨hours, minutes, seconds, fraction⟩, _⟩ := is_valid_iff.mp valid
  obtain ⟨day', ⟨hours', minutes', seconds', fraction'⟩, _⟩ := is_valid_iff.mp valid'
  have within := day_seconds_lt valid
  have within' := day_seconds_lt valid'
  unfold instant at same
  rw [universal, universal', Option.getD_some] at same
  have date : t.date = u.date := days_before_injective day day' (by omega)
  have clock : t.daySeconds = u.daySeconds := by
    rw [date] at same
    omega
  have part : t.microsecond = u.microsecond := by
    rw [date] at same
    omega
  unfold daySeconds at clock
  cases t
  cases u
  simp only [Timestamp.mk.injEq]
  dsimp only at *
  exact ⟨date, by omega, by omega, by omega, part, universal.trans universal'.symm⟩

theorem universal_iff (valid : t.isValid = true) : t.toUniversal? = some u ↔
    u.isValid = true ∧ u.offset = some 0 ∧ u.instant = t.instant := by
  constructor
  · intro moved
    obtain ⟨valid', universal⟩ := universal_valid valid moved
    exact ⟨valid', universal, universal_instant valid moved⟩
  · rintro ⟨valid', universal, same⟩
    have within := instant_within valid' universal
    cases moved : t.toUniversal? with
    | none =>
      unfold InCalendar at within
      rw [same] at within
      exact absurd within (outside_of_none valid moved)
    | some v =>
      obtain ⟨valid'', universal'⟩ := universal_valid valid moved
      rw [instant_injective valid'' universal' valid' universal
        ((universal_instant valid moved).trans same.symm)]

theorem universal_isSome_iff (valid : t.isValid = true) :
    t.toUniversal?.isSome = true ↔ t.InCalendar := by
  cases moved : t.toUniversal? with
  | none => simp [outside_of_none valid moved]
  | some u =>
    obtain ⟨valid', universal, same⟩ := (universal_iff valid).mp moved
    have within := instant_within valid' universal
    unfold InCalendar at within ⊢
    rw [same] at within
    simp [within]

end Timestamp

end ApiSchema
