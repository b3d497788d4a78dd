/-
# Faults

A schedule can fail to give an answer for two reasons: a calendar step has no result, or the
schedule asks for something that no moment of time can answer.
-/

namespace Recurrence

/-- Why a question about a moment has no answer. -/
inductive Fault where
  /-- A calendar step leads to a date that the calendar cannot represent. -/
  | invalidDate
  /-- The schedule or the calendar needs a feature that is not available. -/
  | unsupported (feature : String)
  deriving DecidableEq, Repr

namespace Fault

/-- The text shown for a fault. -/
def message : Fault → String
  | invalidDate => "Calendar encountered an invalid date."
  | unsupported feature => "Unsupported feature: " ++ feature

end Fault

end Recurrence
