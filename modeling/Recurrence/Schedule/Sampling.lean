/-
# Sampling a schedule

A schedule can be tested at a run of moments.  Each moment gives one sample, also where the
moment itself does not exist.
-/
import Recurrence.Schedule.Verdict

namespace Recurrence

variable {τ : Type}

/-- The outcome of a test at one moment of a run. -/
inductive Sample where
  | met
  | unmet
  | failed (fault : Fault)
  /-- The run has no such moment. -/
  | noMoment
  deriving DecidableEq, Repr

/-- The answer that a sample holds. -/
def Sample.answer? : Sample → Option Bool
  | met => some true
  | unmet => some false
  | failed _ | noMoment => none

namespace Schedule

/-- The sample at a moment. -/
def sample (s : Schedule) (C : Calendar τ) : Option τ → Sample
  | none => .noMoment
  | some t =>
    match (s.evaluate C t).result with
    | .ok true => .met
    | .ok false => .unmet
    | .error fault => .failed fault

/-- The samples at the first `count` moments of a run. -/
def samples (s : Schedule) (C : Calendar τ) (count : Nat) (moment : Nat → Option τ) :
    List Sample :=
  (List.range count).map fun i => s.sample C (moment i)

/-- A run is sampled from its first moment on. -/
theorem samples_succ (s : Schedule) (C : Calendar τ) (count : Nat) (moment : Nat → Option τ) :
    s.samples C (count + 1) moment = s.samples C count moment ++ [s.sample C (moment count)] := by
  rw [samples, List.range_succ, List.map_append]
  rfl

/-- A sample holds the answer of the verdict on its moment. -/
theorem answer?_sample_eq_some_iff {s : Schedule} {C : Calendar τ} {m : Option τ} {b : Bool} :
    (s.sample C m).answer? = some b ↔ ∃ t, m = some t ∧ (s.evaluate C t).result = .ok b := by
  rcases m with _ | t
  · simp [sample, Sample.answer?]
  · simp only [sample, Option.some.injEq, exists_eq_left']
    rcases (s.evaluate C t).result with e | (_ | _) <;> simp [Sample.answer?]

end Schedule

end Recurrence
