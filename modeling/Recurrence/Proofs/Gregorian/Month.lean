/-
# The days of a month by their numbers

Searches through a month go from day to day, that is, from one day number to the next.  This
module says where such a run stays in its month:

* `Date.sameMonth_of_dayNumber` : a day number at a distance that does not leave the month belongs
  to the day at that distance;
* `Date.month_ne_of_dayNumber` : one that does leave the month, but by less than 300 days, belongs
  to a month with another number;
* `Date.firstNumber_of_isFirstMonth`, `Date.lastNumber_of_isLastMonth` and their converses : only
  the very first month begins, and only the very last one ends, at the edge of the calendar;
* `Date.not_isFirstMonth_of_saturday`, `Date.not_isLastMonth_of_sunday` : and there no weekend
  meets the edge.
-/
import Recurrence.Moment.DayNumber

namespace Recurrence

namespace Date

variable {d e : Date} {k : Int}

/-! ## Within a month -/

/-- Counting on inside a month changes the day alone. -/
theorem sameMonth_of_dayNumber (he : e.dayNumber = d.dayNumber + k)
    (hk : 1 ≤ d.day + k ∧ d.day + k ≤ d.lengthOfMonth) :
    e.year = d.year ∧ e.month = d.month ∧ e.day = d.day + k := by
  have hday : e = ⟨d.year, d.month, d.day + k, d.year_mem, d.month_mem, hk⟩ := by
    apply dayNumber_injective
    rw [he]
    simp only [dayNumber]
    omega
  rw [hday]
  exact ⟨rfl, rfl, rfl⟩

/-- Two dates in months of one number less than 300 days apart are in one year. -/
theorem year_eq_of_near (hm : e.month = d.month) (he : e.dayNumber = d.dayNumber + k)
    (hk : -300 < k ∧ k < 300) : e.year = d.year := by
  -- a whole year lies between equal months of different years, give or take a leap day
  have far : ∀ x y : Date, x.month = y.month → x.year < y.year →
      x.dayNumber + 300 ≤ y.dayNumber := by
    intro x y hxy hlt
    have h₁ := daysBeforeYear_mono hlt
    have h₂ := daysBeforeYear_succ x.year
    have h₃ : 365 ≤ yearLength x.year := by
      unfold yearLength
      split <;> omega
    have h₄ : daysBeforeMonth x.year x.month ≤ daysBeforeMonth y.year y.month + 1 := by
      rw [hxy]
      unfold daysBeforeMonth
      split
      · omega
      · split <;> split <;> omega
    have hx := x.day_mem
    have hx' := monthLength_bounds x.year x.month
    have hy := y.day_mem
    unfold dayNumber
    omega
  -- so neither year is the later one
  rcases Int.lt_trichotomy e.year d.year with hlt | heq | hgt
  · have := far e d hm hlt
    omega
  · exact heq
  · have := far d e hm.symm hgt
    omega

/-- **Leaving a month is seen by its number.** -/
theorem month_ne_of_dayNumber (he : e.dayNumber = d.dayNumber + k) (hk : -300 < k ∧ k < 300)
    (hout : ¬ (1 ≤ d.day + k ∧ d.day + k ≤ d.lengthOfMonth)) : e.month ≠ d.month := by
  intro hm
  have hy := year_eq_of_near hm he hk
  have hday := e.day_mem
  rw [hy, hm] at hday
  unfold dayNumber at he
  rw [hy, hm] at he
  unfold lengthOfMonth at hout
  omega

/-- A number of the calendar belongs to a date. -/
theorem exists_dayNumber_eq {n : Int} (h : firstNumber ≤ n ∧ n ≤ lastNumber) :
    ∃ d : Date, d.dayNumber = n := by
  rcases hd : ofDayNumber? n with _ | d
  · have hn := ofDayNumber?_eq_none_iff.mp hd
    omega
  · exact ⟨d, ofDayNumber?_eq_some_iff.mp hd⟩

theorem lengthOfMonth_bounds (d : Date) : 28 ≤ d.lengthOfMonth ∧ d.lengthOfMonth ≤ 31 :=
  monthLength_bounds d.year d.month

/-! ## The edges of the calendar -/

/-- The date lies in the first month of the calendar. -/
def IsFirstMonth (d : Date) : Prop := d.year = firstYear ∧ d.month = 1

/-- The date lies in the last month of the calendar. -/
def IsLastMonth (d : Date) : Prop := d.year = lastYear ∧ d.month = 12

instance (d : Date) : Decidable d.IsFirstMonth := inferInstanceAs (Decidable (_ ∧ _))

instance (d : Date) : Decidable d.IsLastMonth := inferInstanceAs (Decidable (_ ∧ _))

/-- The very first month begins with the first date. -/
theorem firstNumber_of_isFirstMonth (h : d.IsFirstMonth) :
    d.firstOfMonth.dayNumber = firstNumber := by
  simp only [dayNumber, firstOfMonth, h.1, h.2, daysBeforeMonth_one, firstNumber]
  omega

theorem lengthOfMonth_of_isFirstMonth (h : d.IsFirstMonth) : d.lengthOfMonth = 31 := by
  rw [lengthOfMonth, h.2]
  rfl

/-- The very last month ends with the last date. -/
theorem lastNumber_of_isLastMonth (h : d.IsLastMonth) : d.lastOfMonth.dayNumber = lastNumber := by
  have h₁₃ := daysBeforeMonth_thirteen lastYear
  have hs := daysBeforeYear_succ lastYear
  have hm := daysBeforeMonth_succ lastYear 12 (by omega)
  rw [show (12 : Int) + 1 = 13 from rfl] at hm
  simp only [dayNumber, lastOfMonth, lengthOfMonth, h.1, h.2, lastNumber]
  omega

theorem lengthOfMonth_of_isLastMonth (h : d.IsLastMonth) : d.lengthOfMonth = 31 := by
  rw [lengthOfMonth, h.2]
  rfl

/-- Every month but the first begins at least 31 days after the first date. -/
theorem firstNumber_add_le (h : ¬ d.IsFirstMonth) :
    firstNumber + 31 ≤ d.firstOfMonth.dayNumber := by
  obtain ⟨a, ha⟩ := exists_dayNumber_eq
    (show firstNumber ≤ firstNumber ∧ firstNumber ≤ lastNumber by decide)
  have haf : a = ⟨firstYear, 1, 1, by decide, by decide, by decide⟩ :=
    dayNumber_injective (ha.trans (by decide))
  have hb := d.firstOfMonth.dayNumber_bounds
  rcases Int.lt_or_le d.firstOfMonth.dayNumber (firstNumber + 31) with hlt | hle
  · -- the 31 days from the first date on lie in the first month
    have hs := sameMonth_of_dayNumber (d := a) (e := d.firstOfMonth)
      (k := d.firstOfMonth.dayNumber - firstNumber) (by omega)
      (by rw [haf]; show 1 ≤ 1 + _ ∧ 1 + _ ≤ (31 : Int); omega)
    rw [haf] at hs
    exact absurd ⟨hs.1, hs.2.1⟩ h
  · exact hle

/-- Every month but the last ends before the last date. -/
theorem dayNumber_lastOfMonth_lt (h : ¬ d.IsLastMonth) :
    d.lastOfMonth.dayNumber < lastNumber := by
  rcases hn : d.firstOfNextMonth? with _ | next
  · exact absurd (d.firstOfNextMonth?_eq_none_iff.mp hn) h
  · have he := dayNumber_of_firstOfNextMonth? hn
    have hb := next.dayNumber_bounds
    omega

/-- The last date is a Monday. -/
theorem not_isLastMonth_of_sunday (hday : d.day = d.lengthOfMonth) (h7 : d.weekday = 7) :
    ¬ d.IsLastMonth := by
  intro hl
  have hnum := lastNumber_of_isLastMonth hl
  have hlast := d.dayNumber_lastOfMonth
  have hmod : (lastNumber - 1) % 7 = 0 := by decide
  unfold weekday at h7
  omega

/-- The first date is a Thursday. -/
theorem not_isFirstMonth_of_saturday (hday : d.day = 1) (h6 : d.weekday = 6) :
    ¬ d.IsFirstMonth := by
  intro hf
  have hnum := firstNumber_of_isFirstMonth hf
  have hfirst := d.dayNumber_firstOfMonth
  have hmod : (firstNumber - 1) % 7 = 3 := by decide
  unfold weekday at h6
  omega

end Date

end Recurrence
