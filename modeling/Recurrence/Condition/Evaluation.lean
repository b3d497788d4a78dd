/-
# Deciding conditions

`Condition.holds` decides one condition for one candidate value of a field; `anyHolds` decides a
list of conditions on a field: one of them has to hold for one of the field's candidate values.

A condition on a day's place in its month says something only about the field it belongs to
(`lastDay` and `nearestWorkday` about the day, `lastWeekday` and `nthWeekday` about the weekday).
On any other field it is false, and the calendar is not asked.
-/
import Recurrence.Calendar.Walk
import Recurrence.Condition.Basic

namespace Recurrence

variable {τ : Type}

namespace Condition

/-! ## One condition -/

/-- Whether the day of `t` is the working day nearest to an anchor in its month. -/
def isNearestWorkday (C : Calendar τ) (t : τ) : DayAnchor → Except Fault Bool
  | .lastDay => do return (← C.lastWorkday t) = some (C.day t)
  | .day d => do return (← C.nearestWorkday (← C.anchorDay t d)) = C.day t

/-- Whether a condition on the field `f` of `t` holds for the candidate value `v`.  On the
weekday, a step never counts the value 0, Sunday's second number. -/
def holds (C : Calendar τ) (t : τ) (f : Field) (v : Int32) : Condition → Except Fault Bool
  | any => .ok true
  | number n => .ok (v = n)
  | range first last => .ok (InRange first last v)
  | step base divisor => .ok (¬ (f = .weekday ∧ v = 0) ∧ base.Progresses divisor v)
  | lastDay =>
    if f = .day then do return v = C.day (← C.endOfMonth t) else .ok false
  | nearestWorkday anchor =>
    if f = .day then isNearestWorkday C t anchor else .ok false
  | lastWeekday w =>
    if f = .weekday then do return (← C.lastWeekday t w) = some (C.day t) else .ok false
  | nthWeekday w nth =>
    if f = .weekday then do return (← C.nthWeekday t w nth) = some (C.day t) else .ok false

/-! ## Lists of conditions -/

/-- Whether one of the conditions on the field `f` of `t` holds.  The condition `any` is enough
wherever it stands.  Otherwise the candidate values are taken in order, each with all
conditions in order, and the first pair that holds or fails decides. -/
def anyHolds (C : Calendar τ) (t : τ) (f : Field) (conditions : List Condition) :
    Except Fault Bool :=
  if any ∈ conditions then .ok true
  else (C.candidates t f).anyM fun v => conditions.anyM fun c => c.holds C t f v

/-- A list with the condition `any` is met without asking the calendar. -/
theorem anyHolds_of_mem (C : Calendar τ) (t : τ) (f : Field) {conditions : List Condition}
    (h : any ∈ conditions) : anyHolds C t f conditions = .ok true :=
  if_pos h

theorem anyHolds_nil (C : Calendar τ) (t : τ) (f : Field) : anyHolds C t f [] = .ok false := by
  simp only [anyHolds, List.not_mem_nil, if_false, List.anyM_nil]
  induction C.candidates t f with
  | nil => rfl
  | cons v vs ih => rw [List.anyM_cons]; exact ih

end Condition

end Recurrence
