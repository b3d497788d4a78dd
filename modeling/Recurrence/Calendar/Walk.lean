/-
# Searches through a month

The days that a schedule can name by their place in a month are found by walking day by day:
back from the month's end (`lastWeekday`, `lastWorkday`), on from its beginning (`nthWeekday`),
or one or two days from a given day (`nearestWorkday`).  A walk visits at most `longestMonth`
days, so it ends on every calendar, also on one whose days never leave the month.  A failing
calendar step ends the search with that step's fault.
-/
import Recurrence.Calendar.Basic

namespace Recurrence

namespace Calendar

variable {τ : Type}

/-! ## Weekdays -/

/-- The most days that a search visits. -/
def longestMonth : Nat := 31

/-- The weekday number `number` is the weekday that a schedule writes as `w`.  Sunday is written
0 or 7, and anything outside 0 to 7 is no weekday. -/
def SameWeekday (number : UInt32) (w : Int32) : Prop :=
  0 ≤ w ∧ w ≤ 7 ∧ number.toInt32 % 7 = w % 7

instance (number : UInt32) (w : Int32) : Decidable (SameWeekday number w) :=
  inferInstanceAs (Decidable (_ ∧ _ ∧ _))

/-- The weekday number belongs to a working day: it stands before Saturday's. -/
def IsWorkday (number : UInt32) : Prop := number < saturday

instance (number : UInt32) : Decidable (IsWorkday number) :=
  inferInstanceAs (Decidable (_ < _))

/-! ## Back from the end of the month -/

/-- The first of the `n` days `t`, `t - 1`, … whose weekday number is accepted. -/
def searchBack (C : Calendar τ) (accept : UInt32 → Bool) : Nat → τ → Except Fault (Option Int32)
  | 0, _ => .ok none
  | n + 1, t =>
    if accept (C.weekday t) then .ok (some (C.day t))
    else do searchBack C accept n (← C.shiftDays t (-1))

/-- The last day of the month that falls on weekday `w`. -/
def lastWeekday (C : Calendar τ) (t : τ) (w : Int32) : Except Fault (Option Int32) := do
  C.searchBack (fun number => SameWeekday number w) longestMonth (← C.endOfMonth t)

/-- The last working day of the month. -/
def lastWorkday (C : Calendar τ) (t : τ) : Except Fault (Option Int32) := do
  C.searchBack (fun number => IsWorkday number) longestMonth (← C.endOfMonth t)

/-! ## On from the beginning of the month -/

/-- The day on which the count `remaining`, lowered by one on every day of weekday `w`, reaches
zero; the `n` days `t`, `t + 1`, … are visited as long as their month is `month`. -/
def countForward (C : Calendar τ) (month w : Int32) :
    Nat → Int32 → τ → Except Fault (Option Int32)
  | 0, _, _ => .ok none
  | n + 1, remaining, t =>
    if C.month t ≠ month then .ok none
    else if SameWeekday (C.weekday t) w then
      if remaining - 1 = 0 then .ok (some (C.day t))
      else do countForward C month w n (remaining - 1) (← C.shiftDays t 1)
    else do countForward C month w n remaining (← C.shiftDays t 1)

/-- The `nth` day of the month that falls on weekday `w`; the day before the month for the
number zero, whatever the weekday. -/
def nthWeekday (C : Calendar τ) (t : τ) (w nth : Int32) : Except Fault (Option Int32) := do
  let start ← C.beginningOfMonth t
  if nth = 0 then
    return some (C.day (← C.shiftDays start (-1)))
  else
    C.countForward (C.month start) w longestMonth nth start

/-! ## Near a day -/

/-- The day at distance `towards`, or the day at distance `away` if the first is in another
month. -/
def shiftWithin (C : Calendar τ) (t : τ) (towards away : Int) : Except Fault Int32 := do
  let shifted ← C.shiftDays t towards
  if C.month shifted = C.month t then return C.day shifted
  else return C.day (← C.shiftDays t away)

/-- The working day nearest to `t` in its month: the Friday before a Saturday and the Monday
after a Sunday, or the other way round where that would leave the month. -/
def nearestWorkday (C : Calendar τ) (t : τ) : Except Fault Int32 :=
  if C.weekday t = sunday then C.shiftWithin t 1 (-2)
  else if C.weekday t = saturday then C.shiftWithin t (-1) 2
  else .ok (C.day t)

/-- The day numbered `d` in the month of `t`, or the month's last day if the month is shorter.
Numbers below one reach back before the month. -/
def anchorDay (C : Calendar τ) (t : τ) (d : Int32) : Except Fault τ := do
  let last ← C.endOfMonth t
  if C.day last < d then return last
  else C.shiftDays (← C.beginningOfMonth t) (d.toInt - 1)

end Calendar

end Recurrence
