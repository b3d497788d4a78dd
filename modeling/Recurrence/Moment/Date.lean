/-
# Dates

Dates of the Gregorian calendar, extended to all years before its introduction; year 0 is the
year before year 1.  A `Date` is a date that exists and whose year lies between
`Date.firstYear` and `Date.lastYear`.

`Date.ofCivil?` is the only way in from bare numbers, and `Date.ofCivil?_eq_some_iff` says which
numbers it accepts.
-/

namespace Recurrence

/-! ## Years and months -/

/-- Every fourth year is a leap year, of the full centuries only every fourth. -/
def IsLeapYear (year : Int) : Prop := year % 4 = 0 ∧ (year % 100 ≠ 0 ∨ year % 400 = 0)

instance (year : Int) : Decidable (IsLeapYear year) := inferInstanceAs (Decidable (_ ∧ _))

/-- The number of days of a year. -/
def yearLength (year : Int) : Int := if IsLeapYear year then 366 else 365

/-- The number of days of a month. -/
def monthLength (year month : Int) : Int :=
  if month = 2 then if IsLeapYear year then 29 else 28
  else if month = 4 ∨ month = 6 ∨ month = 9 ∨ month = 11 then 30
  else 31

/-- Months have 28 to 31 days. -/
theorem monthLength_bounds (year month : Int) :
    28 ≤ monthLength year month ∧ monthLength year month ≤ 31 := by
  unfold monthLength
  split
  · split <;> omega
  · split <;> omega

/-! ## Dates -/

namespace Date

/-- The first year with dates. -/
def firstYear : Int := -262143

/-- The last year with dates. -/
def lastYear : Int := 262142

end Date

/-- A date that exists. -/
@[ext] structure Date where
  year : Int
  month : Int
  day : Int
  year_mem : Date.firstYear ≤ year ∧ year ≤ Date.lastYear
  month_mem : 1 ≤ month ∧ month ≤ 12
  day_mem : 1 ≤ day ∧ day ≤ monthLength year month
  deriving DecidableEq, Repr

namespace Date

/-- The date with the given year, month and day, if there is one. -/
def ofCivil? (year month day : Int) : Option Date :=
  if h : (firstYear ≤ year ∧ year ≤ lastYear) ∧ (1 ≤ month ∧ month ≤ 12) ∧
      1 ≤ day ∧ day ≤ monthLength year month then
    some ⟨year, month, day, h.1, h.2.1, h.2.2⟩
  else none

/-- A date is made of its year, month and day and nothing else. -/
theorem ofCivil?_eq_some_iff {year month day : Int} {d : Date} :
    ofCivil? year month day = some d ↔ d.year = year ∧ d.month = month ∧ d.day = day := by
  unfold ofCivil?
  constructor
  · intro h
    split at h
    · rw [← Option.some.inj h]
      exact ⟨rfl, rfl, rfl⟩
    · simp at h
  · rintro ⟨rfl, rfl, rfl⟩
    rw [dif_pos ⟨d.year_mem, d.month_mem, d.day_mem⟩]

/-- Numbers are refused exactly if they name no date. -/
theorem ofCivil?_eq_none_iff {year month day : Int} :
    ofCivil? year month day = none ↔
      ¬ ((firstYear ≤ year ∧ year ≤ lastYear) ∧ (1 ≤ month ∧ month ≤ 12) ∧
        1 ≤ day ∧ day ≤ monthLength year month) := by
  unfold ofCivil?
  split <;> simp_all

/-! ## Months of a date -/

/-- The number of days of the date's month. -/
def lengthOfMonth (d : Date) : Int := monthLength d.year d.month

/-- The first day of the date's month. -/
def firstOfMonth (d : Date) : Date :=
  ⟨d.year, d.month, 1, d.year_mem, d.month_mem, by
    have := monthLength_bounds d.year d.month
    omega⟩

/-- The last day of the date's month. -/
def lastOfMonth (d : Date) : Date :=
  ⟨d.year, d.month, d.lengthOfMonth, d.year_mem, d.month_mem, by
    have := monthLength_bounds d.year d.month
    unfold lengthOfMonth
    omega⟩

/-- The first day of the next month; the very last month has none. -/
def firstOfNextMonth? (d : Date) : Option Date :=
  if d.month = 12 then ofCivil? (d.year + 1) 1 1 else ofCivil? d.year (d.month + 1) 1

/-- Only the very last month has none after it. -/
theorem firstOfNextMonth?_eq_none_iff (d : Date) :
    d.firstOfNextMonth? = none ↔ d.year = lastYear ∧ d.month = 12 := by
  have hy := d.year_mem
  have hm := d.month_mem
  unfold firstOfNextMonth?
  split
  · have hl := monthLength_bounds (d.year + 1) 1
    rw [ofCivil?_eq_none_iff]
    omega
  · have hl := monthLength_bounds d.year (d.month + 1)
    rw [ofCivil?_eq_none_iff]
    omega

end Date

end Recurrence
