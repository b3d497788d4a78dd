/-
# Uniform calendars

The calendar of a table: all months have one length, all years have one number of months, and the
weekday numbers repeat a list that may hold any numbers in any order.  Moments are day numbers,
day 0 is the first day of year 0, and the time of day never changes.

A step succeeds if it leads to a day between `earliest` and `latest`; the day from which it
starts is not looked at.  Every failure is the same fault.
-/
import Recurrence.Calendar.Basic

namespace Recurrence

/-! ## The table -/

/-- The table of a uniform calendar. -/
structure UniformCalendar where
  monthLength : Int
  monthsPerYear : Int
  /-- The weekday numbers of day 0 and the days after it, over and over. -/
  week : List UInt32
  earliest : Int
  latest : Int
  /-- The fault of a step that leads outside `earliest` to `latest`. -/
  fault : Fault
  hour : Int32
  minute : Int32
  second : Int32
  monthLength_pos : 0 < monthLength
  monthsPerYear_pos : 0 < monthsPerYear
  week_ne_nil : week ≠ []
  deriving DecidableEq, Repr

namespace UniformCalendar

/-! ## Reading a day number -/

/-- The number of the month that holds day `t`, counted from day 0. -/
def monthIndex (U : UniformCalendar) (t : Int) : Int := t / U.monthLength

/-- The first day of the month of `t`. -/
def firstDay (U : UniformCalendar) (t : Int) : Int := U.monthIndex t * U.monthLength

/-- The last day of the month of `t`. -/
def lastDay (U : UniformCalendar) (t : Int) : Int := U.firstDay t + U.monthLength - 1

/-- The place of day `t` in the week. -/
def weekIndex (U : UniformCalendar) (t : Int) : Fin U.week.length :=
  ⟨(t % U.week.length).toNat, by
    have hpos := List.length_pos_iff.mpr U.week_ne_nil
    have hlt := Int.emod_lt_of_pos t (b := U.week.length) (by omega)
    omega⟩

/-- The weekday number of day `t`. -/
def weekday (U : UniformCalendar) (t : Int) : UInt32 := U.week.get (U.weekIndex t)

/-- The value of a field on day `t`.  Days and months count from 1 and years from 0. -/
def field (U : UniformCalendar) (t : Int) : Field → Int32
  | .second => U.second
  | .minute => U.minute
  | .hour => U.hour
  | .day => .ofInt (t % U.monthLength + 1)
  | .month => .ofInt (U.monthIndex t % U.monthsPerYear + 1)
  | .weekday => (U.weekday t).toInt32
  | .year => .ofInt (U.monthIndex t / U.monthsPerYear)

/-- A month begins on or before each of its days. -/
theorem firstDay_le (U : UniformCalendar) (t : Int) : U.firstDay t ≤ t := by
  have := Int.ediv_mul_le t (Int.ne_of_gt U.monthLength_pos)
  simpa [firstDay, monthIndex]

/-- A month ends on or after each of its days. -/
theorem le_lastDay (U : UniformCalendar) (t : Int) : t ≤ U.lastDay t := by
  have h₁ := Int.mul_ediv_add_emod t U.monthLength
  have h₂ := Int.emod_lt_of_pos t U.monthLength_pos
  rw [Int.mul_comm] at h₁
  simp only [lastDay, firstDay, monthIndex]
  omega

/-! ## Steps -/

/-- Arrive at day `t`, if the table covers it. -/
def arrive (U : UniformCalendar) (t : Int) : Except Fault Int :=
  if U.earliest ≤ t ∧ t ≤ U.latest then .ok t else .error U.fault

theorem arrive_eq_ok_iff (U : UniformCalendar) (t u : Int) :
    U.arrive t = .ok u ↔ u = t ∧ U.earliest ≤ t ∧ t ≤ U.latest := by
  unfold arrive
  split
  · next h => simp [h, eq_comm]
  · next h => simp [h]

/-- The calendar of a table. -/
def calendar (U : UniformCalendar) : Calendar Int where
  endOfMonth t := U.arrive (U.lastDay t)
  beginningOfMonth t := U.arrive (U.firstDay t)
  shiftDays t n := U.arrive (t + n)
  weekday := U.weekday
  field := U.field

end UniformCalendar

end Recurrence
