/-
# Moments with an offset

A zoned moment is a moment of universal time together with the offset of a local clock from it.
The local clock shows universal time moved by the offset; the nanoseconds, and with them a leap
second, stay as they are.
-/
import Recurrence.Moment.DateTime

namespace Recurrence

/-- An offset of local time from universal time, less than a day. -/
structure UtcOffset where
  /-- Seconds east. -/
  seconds : Int
  seconds_mem : -86400 < seconds ∧ seconds < 86400
  deriving DecidableEq, Repr

/-- The offset of a number of seconds east, if it is less than a day. -/
def UtcOffset.ofSeconds? (s : Int) : Option UtcOffset :=
  if h : -86400 < s ∧ s < 86400 then some ⟨s, h⟩ else none

/-- A moment of universal time with an offset. -/
structure Zoned where
  utc : DateTime
  offset : UtcOffset
  deriving DecidableEq, Repr

namespace Zoned

/-- What the local clock shows, if its date exists. -/
def wallClock? (z : Zoned) : Option DateTime :=
  z.utc.withSecondCount? (z.utc.secondCount + z.offset.seconds)

/-- The local clock is ahead by the offset, and the nanoseconds are the same. -/
theorem wallClock?_eq_some_iff {z : Zoned} {x : DateTime} :
    z.wallClock? = some x ↔
      x.secondCount = z.utc.secondCount + z.offset.seconds ∧
        x.time.nanosecond = z.utc.time.nanosecond :=
  DateTime.withSecondCount?_eq_some_iff

/-- It shows nothing if the local day has no date. -/
theorem wallClock?_eq_none_iff {z : Zoned} :
    z.wallClock? = none ↔
      (z.utc.secondCount + z.offset.seconds) / 86400 < Date.firstNumber ∨
        Date.lastNumber < (z.utc.secondCount + z.offset.seconds) / 86400 :=
  DateTime.withSecondCount?_eq_none_iff

end Zoned

end Recurrence
