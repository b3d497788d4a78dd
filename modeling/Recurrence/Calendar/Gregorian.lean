/-
# The Gregorian calendar

The calendar of `DateTime`: months and weekdays come from the date, and all steps go by whole
days.  A step fails if it leads to a date that does not exist.  The end of a month is found from
the first day of the next one, so the very last month has none.
-/
import Recurrence.Calendar.Basic
import Recurrence.Moment.DateTime

namespace Recurrence

namespace Gregorian

/-- A result of date arithmetic as the result of a calendar step. -/
def arrive (x : Option DateTime) : Except Fault DateTime :=
  match x with
  | some y => .ok y
  | none => .error .invalidDate

/-- The last day of the month, one day before the first of the next. -/
def endOfMonth? (x : DateTime) : Option DateTime := do
  let next ← x.date.firstOfNextMonth?
  DateTime.addDays? ⟨next, x.time⟩ (-1)

/-- The first day of the month. -/
def beginningOfMonth (x : DateTime) : DateTime := ⟨x.date.firstOfMonth, x.time⟩

/-- The number of the weekday. -/
def weekday (x : DateTime) : UInt32 := .ofNat x.date.weekday.toNat

/-- The value of a field. -/
def field (x : DateTime) : Field → Int32
  | .second => .ofInt x.time.second
  | .minute => .ofInt x.time.minute
  | .hour => .ofInt x.time.hour
  | .day => .ofInt x.date.day
  | .month => .ofInt x.date.month
  | .weekday => .ofInt x.date.weekday
  | .year => .ofInt x.date.year

end Gregorian

/-- The Gregorian calendar. -/
def gregorian : Calendar DateTime where
  endOfMonth x := Gregorian.arrive (Gregorian.endOfMonth? x)
  beginningOfMonth x := .ok (Gregorian.beginningOfMonth x)
  shiftDays x n := Gregorian.arrive (x.addDays? n)
  weekday := Gregorian.weekday
  field := Gregorian.field

/-! ## Steps away from leap seconds -/

namespace Gregorian

theorem arrive_eq_ok_iff {x : Option DateTime} {y : DateTime} : arrive x = .ok y ↔ x = some y := by
  cases x <;> simp [arrive]

/-- Away from leap seconds, the end of a month is its last day at the same time; only the very
last month has none. -/
theorem endOfMonth?_eq_some_iff {x y : DateTime} (h : ¬ x.time.IsLeap) :
    endOfMonth? x = some y ↔
      ¬ (x.date.year = Date.lastYear ∧ x.date.month = 12) ∧ y = ⟨x.date.lastOfMonth, x.time⟩ := by
  rw [← x.date.firstOfNextMonth?_eq_none_iff]
  rcases hn : x.date.firstOfNextMonth? with _ | e
  · simp [endOfMonth?, hn]
  · have he := Date.dayNumber_of_firstOfNextMonth? hn
    have hs : DateTime.addDays? ⟨e, x.time⟩ (-1) = some y ↔ y = ⟨x.date.lastOfMonth, x.time⟩ := by
      have hi : ¬ (⟨e, x.time⟩ : DateTime).time.IsLeap := h
      rw [DateTime.addDays?_eq_some_iff hi]
      constructor
      · rintro ⟨ht, hd⟩
        refine DateTime.ext (Date.dayNumber_injective ?_) ht
        show y.date.dayNumber = x.date.lastOfMonth.dayNumber
        have hd' : y.date.dayNumber = e.dayNumber + -1 := hd
        omega
      · rintro rfl
        refine ⟨rfl, ?_⟩
        show x.date.lastOfMonth.dayNumber = e.dayNumber + -1
        omega
    simpa [endOfMonth?, hn] using hs

/-- Away from leap seconds, a step of days adds to the day number and keeps the time of day. -/
theorem shiftDays_eq_ok_iff {x y : DateTime} {n : Int} (h : ¬ x.time.IsLeap) :
    gregorian.shiftDays x n = .ok y ↔
      y.time = x.time ∧ y.date.dayNumber = x.date.dayNumber + n := by
  rw [← DateTime.addDays?_eq_some_iff h, ← arrive_eq_ok_iff]
  rfl

end Gregorian

end Recurrence
