/-
# Schedules

A schedule holds one list of conditions for each field; every list has to be met.  A schedule
can instead be meant for boot time, which no moment meets.

The eight parts of a schedule are named by `Slot`, in the order in which they are written.
-/
import Recurrence.Condition.Basic
import Recurrence.Field

namespace Recurrence

/-! ## The parts of a schedule -/

/-- A part of a schedule: the boot flag or the conditions on one field. -/
inductive Slot where
  | reboot
  | conditions (f : Field)
  deriving DecidableEq, Repr

namespace Slot

/-- All parts in writing order. -/
def all : List Slot := reboot :: Field.all.map conditions

/-- The lower-case name of a part. -/
def name : Slot → String
  | reboot => "reboot"
  | conditions f => f.name

/-- The place of a part in `all`. -/
def position (p : Slot) : Nat := all.idxOf p

theorem mem_all (p : Slot) : p ∈ all := by
  cases p with
  | reboot => decide
  | conditions f => cases f <;> decide

/-- Different parts have different names. -/
theorem name_injective {p q : Slot} (h : p.name = q.name) : p = q := by
  cases p with
  | reboot => cases q with
    | reboot => rfl
    | conditions g => cases g <;> simp [name, Field.name] at h
  | conditions f => cases q with
    | reboot => cases f <;> simp [name, Field.name] at h
    | conditions g => cases f <;> cases g <;> simp [name, Field.name] at h ⊢

end Slot

/-! ## Schedules -/

/-- A schedule.  A part that is not given is met by every moment. -/
structure Schedule where
  reboot : Bool := false
  second : List Condition := [.any]
  minute : List Condition := [.any]
  hour : List Condition := [.any]
  day : List Condition := [.any]
  month : List Condition := [.any]
  weekday : List Condition := [.any]
  year : List Condition := [.any]
  deriving DecidableEq, Repr

namespace Schedule

/-- The schedule with a given boot flag and a list of conditions for each field. -/
def ofConditions (reboot : Bool) (conditions : Field → List Condition) : Schedule where
  reboot := reboot
  second := conditions .second
  minute := conditions .minute
  hour := conditions .hour
  day := conditions .day
  month := conditions .month
  weekday := conditions .weekday
  year := conditions .year

/-- The schedule meant for boot time. -/
def atBoot : Schedule := { reboot := true }

/-- The conditions on a field. -/
def conditions (s : Schedule) : Field → List Condition
  | .second => s.second
  | .minute => s.minute
  | .hour => s.hour
  | .day => s.day
  | .month => s.month
  | .weekday => s.weekday
  | .year => s.year

@[simp] theorem reboot_ofConditions (reboot : Bool) (g : Field → List Condition) :
    (ofConditions reboot g).reboot = reboot := rfl

@[simp] theorem conditions_ofConditions (reboot : Bool) (g : Field → List Condition) (f : Field) :
    (ofConditions reboot g).conditions f = g f := by
  cases f <;> rfl

/-- A schedule is its boot flag and its lists. -/
@[simp] theorem ofConditions_conditions (s : Schedule) :
    ofConditions s.reboot s.conditions = s := rfl

/-- A schedule is determined by its boot flag and its conditions. -/
theorem ext_conditions {s s' : Schedule} (hb : s.reboot = s'.reboot)
    (hc : ∀ f, s.conditions f = s'.conditions f) : s = s' := by
  rw [← ofConditions_conditions s, ← ofConditions_conditions s', hb, funext hc]

end Schedule

end Recurrence
