/-
# Calendars

A calendar says how moments of some type `τ` are read and how one moves between them.  Reading a
field always succeeds; the three steps (to the end of the month, to its beginning, and by a
number of days) may fail.  Nothing is assumed about a calendar: the searches of
`Recurrence.Calendar.Walk` are defined for every one, also for one that reads the day of the month
in a way of its own (`day`) and not off the field (`ReadsDay`).

Weekdays are numbered from Monday, 1, to Sunday, 7.  A schedule may also write Sunday as 0, so
on a Sunday the weekday has two candidate values (`candidates`).
-/
import Recurrence.Fault
import Recurrence.Field

namespace Recurrence

/-! ## The interface -/

/-- The operations of a calendar over moments of type `τ`. -/
structure Calendar (τ : Type) where
  /-- The last day of the moment's month. -/
  endOfMonth : τ → Except Fault τ
  /-- The first day of the moment's month. -/
  beginningOfMonth : τ → Except Fault τ
  /-- The moment a number of days later. -/
  shiftDays : τ → Int → Except Fault τ
  /-- The number of the moment's weekday. -/
  weekday : τ → UInt32
  /-- The value of a field. -/
  field : τ → Field → Int32
  /-- The day of the month.  A calendar without a way of its own reads it off its field. -/
  day : τ → Int32 := fun t => field t .day

namespace Calendar

variable {τ : Type}

/-- The number of Saturday. -/
def saturday : UInt32 := 6

/-- The number of Sunday. -/
def sunday : UInt32 := 7

/-- The number of the month. -/
def month (C : Calendar τ) (t : τ) : Int32 := C.field t .month

/-- The calendar reads the day of the month off its field. -/
def ReadsDay (C : Calendar τ) : Prop := ∀ t, C.day t = C.field t .day

/-! ## Candidate values -/

/-- The values that a condition on a field may meet: the field's value, or 0 and 7 for the
weekday of a Sunday. -/
def candidates (C : Calendar τ) (t : τ) (f : Field) : List Int32 :=
  if f = .weekday ∧ C.weekday t = sunday then [0, 7] else [C.field t f]

/-- Only a weekday can have two values. -/
theorem candidates_of_ne_weekday (C : Calendar τ) (t : τ) {f : Field} (h : f ≠ .weekday) :
    C.candidates t f = [C.field t f] := by
  simp [candidates, h]

/-- A Sunday is 0 and 7. -/
theorem candidates_sunday (C : Calendar τ) {t : τ} (h : C.weekday t = sunday) :
    C.candidates t .weekday = [0, 7] := by
  simp [candidates, h]

theorem candidates_weekday (C : Calendar τ) {t : τ} (h : C.weekday t ≠ sunday) :
    C.candidates t .weekday = [C.field t .weekday] := by
  simp [candidates, h]

end Calendar

end Recurrence
