/-
# Testing zoned moments

A zoned moment meets a schedule if its local clock does.
-/
import Recurrence.Calendar.Gregorian
import Recurrence.Moment.Zoned
import Recurrence.Schedule.Verdict

namespace Recurrence

namespace Schedule

/-- The verdict of a schedule on what the local clock of a zoned moment shows; none if the local
date does not exist. -/
def evaluateZoned? (s : Schedule) (z : Zoned) : Option Verdict := do
  return s.evaluate gregorian (← z.wallClock?)

/-- A zoned moment is tested by what its local clock shows. -/
theorem evaluateZoned?_of_wallClock? {s : Schedule} {z : Zoned} {x : DateTime}
    (h : z.wallClock? = some x) : s.evaluateZoned? z = some (s.evaluate gregorian x) := by
  simp [evaluateZoned?, h]

end Schedule

end Recurrence
