/-
# Verdicts on a moment

A schedule is tested field by field, in the order of `Field.all`, until a field refuses the
moment or a test fails.  The verdict holds the answer and what is worth logging: that a schedule
for boot time was refused, or which field refused the moment.
-/
import Recurrence.Condition.Evaluation
import Recurrence.Schedule.Basic

namespace Recurrence

variable {τ : Type}

/-! ## Verdicts -/

/-- Something worth logging about a test. -/
inductive Event where
  /-- The schedule is meant for boot time. -/
  | bootRejected
  /-- The moment does not meet the conditions on a field. -/
  | mismatch (f : Field)
  deriving DecidableEq, Repr

/-- The log line of an event: its level and its text. -/
def Event.line : Event → String
  | bootRejected => "DEBUG rejecting @reboot expression"
  | mismatch f => "TRACE interval does not match interval=" ++ f.name

/-- The answer of a test and its log. -/
structure Verdict where
  result : Except Fault Bool
  events : List Event

namespace Schedule

/-! ## Testing a moment -/

/-- Whether a moment meets the conditions on one field. -/
def meets (s : Schedule) (C : Calendar τ) (t : τ) (f : Field) : Except Fault Bool :=
  Condition.anyHolds C t f (s.conditions f)

/-- The first of the given fields whose conditions the moment does not meet. -/
def firstMismatch (s : Schedule) (C : Calendar τ) (t : τ) (fields : List Field) :
    Except Fault (Option Field) :=
  fields.findM? fun f => do return !(← s.meets C t f)

/-- The verdict of testing the given fields in their order. -/
def evaluateOn (fields : List Field) (s : Schedule) (C : Calendar τ) (t : τ) : Verdict :=
  if s.reboot then ⟨.error (.unsupported "@reboot"), [.bootRejected]⟩
  else
    match s.firstMismatch C t fields with
    | .error fault => ⟨.error fault, []⟩
    | .ok none => ⟨.ok true, []⟩
    | .ok (some f) => ⟨.ok false, [.mismatch f]⟩

/-- The verdict of a schedule on a moment. -/
def evaluate (s : Schedule) (C : Calendar τ) (t : τ) : Verdict := s.evaluateOn Field.all C t

/-! ## Basic lemmas -/

/-- A schedule for boot time is refused whatever its conditions and the calendar. -/
theorem evaluateOn_of_reboot (fields : List Field) {s : Schedule} (C : Calendar τ) (t : τ)
    (h : s.reboot = true) :
    s.evaluateOn fields C t = ⟨.error (.unsupported "@reboot"), [.bootRejected]⟩ :=
  if_pos h

theorem firstMismatch_nil (s : Schedule) (C : Calendar τ) (t : τ) :
    s.firstMismatch C t [] = .ok none := rfl

/-- The first field decides unless it is met. -/
theorem firstMismatch_cons (s : Schedule) (C : Calendar τ) (t : τ) (f : Field)
    (fields : List Field) :
    s.firstMismatch C t (f :: fields) =
      match s.meets C t f with
      | .error fault => .error fault
      | .ok false => .ok (some f)
      | .ok true => s.firstMismatch C t fields := by
  simp only [firstMismatch, List.findM?]
  rcases s.meets C t f with fault | b
  · rfl
  · cases b <;> rfl

end Schedule

end Recurrence
