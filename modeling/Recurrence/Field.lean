/-
# Fields of a moment

A moment of local time is read through seven fields.  A schedule puts one list of conditions on
each of them and tests the lists in the order of `Field.all`, which is also the order of the
type: seconds first, years last.
-/

namespace Recurrence

/-! ## The seven fields -/

/-- A field of a moment. -/
inductive Field where
  | second
  | minute
  | hour
  | day
  | month
  | weekday
  | year
  deriving DecidableEq, Repr, Ord

namespace Field

/-- All fields in the order in which a schedule tests them. -/
def all : List Field := [second, minute, hour, day, month, weekday, year]

/-- The lower-case name of a field. -/
def name : Field → String
  | second => "second"
  | minute => "minute"
  | hour => "hour"
  | day => "day"
  | month => "month"
  | weekday => "weekday"
  | year => "year"

/-- The field with a given lower-case name. -/
def ofName? (s : String) : Option Field := all.find? (·.name = s)

/-! ## Basic lemmas -/

theorem mem_all (f : Field) : f ∈ all := by cases f <;> decide

theorem nodup_all : all.Nodup := by decide

/-- The name of a field is read back as the field. -/
theorem ofName?_name (f : Field) : ofName? f.name = some f := by cases f <;> decide

/-- The order of the type is the order of `all`. -/
theorem pairwise_all : all.Pairwise (fun f g => compare f g = .lt) := by decide

end Field

end Recurrence
