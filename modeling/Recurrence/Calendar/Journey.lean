/-
# Journeys through a calendar

A journey is a run of calendar steps, each taken from the moment that the last successful one led
to: a step that fails leaves the moment as it was.

It is told in two ways, by the outcomes of its steps (`Calendar.journey`) and by the moment where it
ends (`Calendar.destination`), and either tells the other: `getElem?_journey` reads an outcome off
the end of the steps before it, and `destination_eq_getLastD` the end off the outcomes.
-/
import Recurrence.Calendar.Basic

namespace Recurrence

variable {τ : Type}

/-- A step on a calendar. -/
inductive Step where
  | endOfMonth
  | beginningOfMonth
  | shiftDays (n : Int)
  deriving DecidableEq, Repr

namespace Calendar

/-- The moment after one step. -/
def step (C : Calendar τ) (t : τ) : Step → Except Fault τ
  | .endOfMonth => C.endOfMonth t
  | .beginningOfMonth => C.beginningOfMonth t
  | .shiftDays n => C.shiftDays t n

/-- The moment from which a journey goes on after a step: the step's end, or still `t` if the
step fails. -/
def advance (C : Calendar τ) (t : τ) (a : Step) : τ :=
  match C.step t a with
  | .ok u => u
  | .error _ => t

/-- The outcome of each step of a journey from `t`. -/
def journey (C : Calendar τ) (t : τ) : List Step → List (Except Fault τ)
  | [] => []
  | a :: rest => C.step t a :: C.journey (C.advance t a) rest

/-- Where a journey from `t` ends. -/
def destination (C : Calendar τ) (t : τ) (steps : List Step) : τ := steps.foldl C.advance t

/-! ## Basic lemmas -/

/-- Every step has an outcome. -/
theorem length_journey (C : Calendar τ) (t : τ) (steps : List Step) :
    (C.journey t steps).length = steps.length := by
  induction steps generalizing t with
  | nil => rfl
  | cons a rest ih => rw [journey, List.length_cons, List.length_cons, ih]

theorem advance_of_ok {C : Calendar τ} {t u : τ} {a : Step} (h : C.step t a = .ok u) :
    C.advance t a = u := by
  rw [advance, h]

theorem advance_of_error {C : Calendar τ} {t : τ} {a : Step} {e : Fault}
    (h : C.step t a = .error e) : C.advance t a = t := by
  rw [advance, h]

theorem destination_cons (C : Calendar τ) (t : τ) (a : Step) (rest : List Step) :
    C.destination t (a :: rest) = C.destination (C.advance t a) rest := rfl

/-- Either the step succeeds and is taken, or nothing changes. -/
theorem advance_eq_or (C : Calendar τ) (t : τ) (a : Step) :
    C.step t a = .ok (C.advance t a) ∨ C.advance t a = t := by
  unfold advance
  split
  · next u h => exact Or.inl h
  · exact Or.inr rfl

/-! ## Outcomes and ends -/

/-- A journey may be broken off and taken up again where it has led. -/
theorem journey_append (C : Calendar τ) (t : τ) (before after : List Step) :
    C.journey t (before ++ after)
      = C.journey t before ++ C.journey (C.destination t before) after := by
  induction before generalizing t with
  | nil => rfl
  | cons a rest ih =>
      rw [List.cons_append, journey, journey, ih, destination_cons, List.cons_append]

/-- The outcome of a step is what it comes to where the steps before it have led. -/
theorem getElem?_journey (C : Calendar τ) (t : τ) (before after : List Step) (a : Step) :
    (C.journey t (before ++ a :: after))[before.length]?
      = some (C.step (C.destination t before) a) := by
  have hlength := C.length_journey t before
  rw [journey_append, journey, List.getElem?_append_right (by omega), hlength, Nat.sub_self]
  rfl

/-- **A journey ends where its last successful step leads**, or where it began if none succeeds. -/
theorem destination_eq_getLastD (C : Calendar τ) (t : τ) (steps : List Step) :
    C.destination t steps = ((C.journey t steps).filterMap Except.toOption).getLastD t := by
  induction steps generalizing t with
  | nil => rfl
  | cons a rest ih =>
      rw [destination_cons, journey, ih]
      rcases hs : C.step t a with e | u
      · rw [advance_of_error hs, List.filterMap_cons_none rfl]
      · show _ = List.getLastD (u :: _) t
        rw [advance_of_ok hs, List.getLastD_cons]

end Calendar

end Recurrence
