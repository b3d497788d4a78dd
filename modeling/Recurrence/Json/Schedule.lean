/-
# The JSON form of schedules

A schedule is read from an object, part by name, or from an array of at most eight elements,
part by position.  A part that is not given takes its default; a part that is given has to be
well formed, so one malformed condition refuses the whole schedule.  It is written as an object
with all eight parts.
-/
import Recurrence.Json.Condition
import Recurrence.Schedule.Basic

namespace Recurrence

namespace Schedule

/-! ## Reading -/

/-- The values given for the parts of a schedule.  Members with other names are ignored. -/
def givenParts? : Json → Option (Slot → Option Json)
  | .object members => some fun p => members.lookup p.name
  | .array elements =>
    if elements.length ≤ Slot.all.length then some fun p => elements[p.position]? else none
  | _ => none

/-- Read the boot flag, false if it is not given. -/
def bootOfGiven? : Option Json → Option Bool
  | none => some false
  | some j => j.bool?

/-- Read the conditions on a field, the condition `any` if they are not given. -/
def conditionsOfGiven? : Option Json → Option (List Condition)
  | none => some [.any]
  | some j => Condition.listOfJson? j

/-- Read a schedule from the values given for its parts. -/
def ofGiven? (given : Slot → Option Json) : Option Schedule := do
  let conditions (f : Field) := conditionsOfGiven? (given (.conditions f))
  return {
    reboot := ← bootOfGiven? (given .reboot)
    second := ← conditions .second
    minute := ← conditions .minute
    hour := ← conditions .hour
    day := ← conditions .day
    month := ← conditions .month
    weekday := ← conditions .weekday
    year := ← conditions .year }

/-- Read a schedule. -/
def ofJson? (j : Json) : Option Schedule := do ofGiven? (← givenParts? j)

/-! ## Writing -/

/-- Write one part of a schedule. -/
def partToJson (s : Schedule) : Slot → Json
  | .reboot => .bool s.reboot
  | .conditions f => Condition.listToJson (s.conditions f)

/-- Write a schedule. -/
def toJson (s : Schedule) : Json := .object (Slot.all.map fun p => (p.name, s.partToJson p))

/-! ## Basic lemmas -/

/-- Reading from given parts succeeds if and only if every part is read. -/
theorem ofGiven?_eq_some_iff {given : Slot → Option Json} {s : Schedule} :
    ofGiven? given = some s ↔
      bootOfGiven? (given .reboot) = some s.reboot ∧
        ∀ f, conditionsOfGiven? (given (.conditions f)) = some (s.conditions f) := by
  constructor
  · intro h
    simp only [ofGiven?, Option.bind_eq_bind, Option.bind_eq_some_iff, Option.pure_def,
      Option.some.injEq] at h
    obtain ⟨b, hb, l₁, h₁, l₂, h₂, l₃, h₃, l₄, h₄, l₅, h₅, l₆, h₆, l₇, h₇, rfl⟩ := h
    refine ⟨hb, fun f => ?_⟩
    cases f <;> assumption
  · rintro ⟨hb, hc⟩
    have h₁ := hc .second
    have h₂ := hc .minute
    have h₃ := hc .hour
    have h₄ := hc .day
    have h₅ := hc .month
    have h₆ := hc .weekday
    have h₇ := hc .year
    simp only [conditions] at h₁ h₂ h₃ h₄ h₅ h₆ h₇
    simp [ofGiven?, hb, h₁, h₂, h₃, h₄, h₅, h₆, h₇]

end Schedule

end Recurrence
