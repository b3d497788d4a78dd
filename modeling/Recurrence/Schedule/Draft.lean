/-
# Drafts of schedules

A schedule can be put together setting by setting.  A later setting of the same part replaces an
earlier one, settings of different parts do not disturb each other (`set_set_same`,
`set_set_comm`), and a part that was never set keeps its default (`conditions_build`).
-/
import Recurrence.Schedule.Basic

namespace Recurrence

/-! ## Settings and drafts -/

/-- A value for one part of a schedule. -/
inductive Setting where
  | reboot (value : Bool)
  | conditions (f : Field) (list : List Condition)
  deriving DecidableEq, Repr

/-- The part that a setting is for. -/
def Setting.slot : Setting → Slot
  | reboot _ => .reboot
  | conditions f _ => .conditions f

/-- A schedule in the making: what has been set so far. -/
@[ext] structure Draft where
  reboot : Option Bool := none
  conditions : Field → Option (List Condition) := fun _ => none

namespace Draft

/-- The draft in which nothing is set. -/
def empty : Draft := {}

/-- Put a setting into a draft. -/
def set (d : Draft) : Setting → Draft
  | .reboot value => { d with reboot := some value }
  | .conditions f list =>
    { d with conditions := fun g => if g = f then some list else d.conditions g }

/-- The draft after a run of settings. -/
def ofSettings (settings : List Setting) : Draft := settings.foldl set empty

/-- The finished schedule: false for a boot flag and the condition `any` for a list that was
never set. -/
def build (d : Draft) : Schedule :=
  .ofConditions (d.reboot.getD false) fun f => (d.conditions f).getD [.any]

/-! ## Basic lemmas -/

/-- The boot flag is as set, or false. -/
@[simp] theorem reboot_build (d : Draft) : d.build.reboot = d.reboot.getD false := rfl

/-- The list of a field is as set, or holds `any` alone. -/
@[simp] theorem conditions_build (d : Draft) (f : Field) :
    d.build.conditions f = (d.conditions f).getD [.any] :=
  Schedule.conditions_ofConditions ..

@[simp] theorem reboot_set_reboot (d : Draft) (value : Bool) :
    (d.set (.reboot value)).reboot = some value := rfl

/-- Setting a list leaves the boot flag alone. -/
@[simp] theorem reboot_set_conditions (d : Draft) (f : Field) (list : List Condition) :
    (d.set (.conditions f list)).reboot = d.reboot := rfl

/-- Setting the boot flag leaves the lists alone. -/
@[simp] theorem conditions_set_reboot (d : Draft) (value : Bool) (g : Field) :
    (d.set (.reboot value)).conditions g = d.conditions g := rfl

/-- Setting the list of a field leaves those of other fields alone. -/
@[simp] theorem conditions_set_conditions (d : Draft) (f : Field) (list : List Condition)
    (g : Field) :
    (d.set (.conditions f list)).conditions g = if g = f then some list else d.conditions g := rfl

theorem build_empty : empty.build = {} := rfl

/-- The later of two settings of one part counts. -/
theorem set_set_same (d : Draft) {a b : Setting} (h : a.slot = b.slot) :
    (d.set a).set b = d.set b := by
  cases a <;> cases b <;> simp [Setting.slot] at h
  · rfl
  · subst h
    ext1
    · rfl
    · funext g
      simp only [conditions_set_conditions]
      split <;> rfl

/-- Settings of different parts may change places. -/
theorem set_set_comm (d : Draft) {a b : Setting} (h : a.slot ≠ b.slot) :
    (d.set a).set b = (d.set b).set a := by
  cases a <;> cases b <;> simp [Setting.slot] at h
  · rfl
  · rfl
  · ext1
    · rfl
    · funext g
      simp only [conditions_set_conditions]
      split <;> split <;> simp_all

end Draft

end Recurrence
