/-
# The JSON form of fields and conditions

A condition is written as a variant (`Json.variant?`).  Reading is strict: a name has to be one
of those written, a variant without data has the payload null, a variant with data has exactly
the payload listed for it.
-/
import Recurrence.Condition.Basic
import Recurrence.Field
import Recurrence.Json.Basic

namespace Recurrence

/-! ## Fields -/

namespace Field

/-- The name of a field as a variant. -/
def label : Field → String
  | second => "Second"
  | minute => "Minute"
  | hour => "Hour"
  | day => "Day"
  | month => "Month"
  | weekday => "Weekday"
  | year => "Year"

/-- Read a field. -/
def ofJson? (j : Json) : Option Field :=
  match j.variant? with
  | some (name, .null) => all.find? (·.label = name)
  | _ => none

/-- Write a field. -/
def toJson (f : Field) : Json := .string f.label

/-- A field is read back from its label. -/
theorem ofJson?_toJson (f : Field) : ofJson? f.toJson = some f := by cases f <;> decide

end Field

/-! ## Step bases -/

namespace StepBase

/-- Read the base of a step. -/
def ofJson? (j : Json) : Option StepBase :=
  match j.variant? with
  | some ("Any", .null) => some any
  | some ("Range", .array [first, last]) => return range (← first.int32?) (← last.int32?)
  | _ => none

/-- Write the base of a step. -/
def toJson : StepBase → Json
  | any => .string "Any"
  | range first last => .ofVariant "Range" (.array [.ofInt32 first, .ofInt32 last])

end StepBase

/-! ## Day anchors -/

namespace DayAnchor

/-- Read an anchor. -/
def ofJson? (j : Json) : Option DayAnchor :=
  match j.variant? with
  | some ("LastDayOfMonth", .null) => some lastDay
  | some ("Day", number) => return day (← number.int32?)
  | _ => none

/-- Write an anchor. -/
def toJson : DayAnchor → Json
  | day number => .ofVariant "Day" (.ofInt32 number)
  | lastDay => .string "LastDayOfMonth"

end DayAnchor

/-! ## Conditions -/

namespace Condition

/-- Read a condition. -/
def ofJson? (j : Json) : Option Condition :=
  match j.variant? with
  | some ("Any", .null) => some any
  | some ("Number", n) => return number (← n.int32?)
  | some ("Range", .array [first, last]) => return range (← first.int32?) (← last.int32?)
  | some ("Step", .array [base, divisor]) =>
    return step (← StepBase.ofJson? base) (← divisor.uint32?)
  | some ("LastDayOfMonth", .null) => some lastDay
  | some ("NearestWeekdayToDay", anchor) => return nearestWorkday (← DayAnchor.ofJson? anchor)
  | some ("LastWeekdayOccurrence", weekday) => return lastWeekday (← weekday.int32?)
  | some ("NthWeekdayOccurrence", .array [weekday, nth]) =>
    return nthWeekday (← weekday.int32?) (← nth.int32?)
  | _ => none

/-- Write a condition. -/
def toJson : Condition → Json
  | any => .string "Any"
  | number n => .ofVariant "Number" (.ofInt32 n)
  | range first last => .ofVariant "Range" (.array [.ofInt32 first, .ofInt32 last])
  | step base divisor => .ofVariant "Step" (.array [base.toJson, .ofUInt32 divisor])
  | lastDay => .string "LastDayOfMonth"
  | nearestWorkday anchor => .ofVariant "NearestWeekdayToDay" anchor.toJson
  | lastWeekday weekday => .ofVariant "LastWeekdayOccurrence" (.ofInt32 weekday)
  | nthWeekday weekday nth =>
    .ofVariant "NthWeekdayOccurrence" (.array [.ofInt32 weekday, .ofInt32 nth])

/-- Read a list of conditions: all of them or none. -/
def listOfJson? : Json → Option (List Condition)
  | .array elements => elements.mapM ofJson?
  | _ => none

/-- Write a list of conditions. -/
def listToJson (conditions : List Condition) : Json := .array (conditions.map toJson)

end Condition

end Recurrence
