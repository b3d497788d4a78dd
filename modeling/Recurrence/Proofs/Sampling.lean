/-
# Samples of a run

A schedule can be tested at a run of moments at equal distances (`DateTime.run`).  The samples of
such a run say what the verdicts say, one by one, so what holds of two verdicts holds of two runs:

* `Simulation.samples_eq` : calendars in step are sampled alike;
* `Gregorian.samples_repeat` : a run has the answers of the run four centuries before or after it.

A run can leave the calendar, forwards or backwards.  It does so once and for all
(`Gregorian.samples_run`).
-/
import Mathlib.Data.List.Forall2
import Recurrence.Proofs.Exchange
import Recurrence.Proofs.Gregorian.FourCenturies
import Recurrence.Schedule.Sampling

namespace Recurrence

/-! ## Calendars in step -/

namespace Simulation

variable {α β : Type} {A : Calendar α} {B : Calendar β} {R : α → β → Prop}

/-- Related moments give one sample, and so do two places of a run that have no moment. -/
theorem sample_eq (h : Simulation A B R) (s : Schedule) {m : Option α} {m' : Option β}
    (hm : Option.Rel R m m') : s.sample A m = s.sample B m' := by
  cases hm with
  | none => rfl
  | some hab =>
      rw [Schedule.sample, Schedule.sample,
        h.toDateSimulation.evaluate_eq hab (h.field hab)]

/-- **Calendars in step are sampled alike** along related runs. -/
theorem samples_eq (h : Simulation A B R) (s : Schedule) {moment : Nat → Option α}
    {moment' : Nat → Option β} (hm : ∀ i, Option.Rel R (moment i) (moment' i)) (count : Nat) :
    s.samples A count moment = s.samples B count moment' := by
  induction count with
  | zero => rfl
  | succ n ih => rw [Schedule.samples_succ, Schedule.samples_succ, ih, h.sample_eq s (hm n)]

end Simulation

/-! ## Runs of the Gregorian calendar -/

namespace DateTime

variable {x y : DateTime} {step : Int} {i j : Nat}

/-- The moments from `x` on at distances of `step` seconds. -/
def run (x : DateTime) (step : Int) (i : Nat) : Option DateTime := x.addSeconds? (i * step)

/-- Runs count the seconds. -/
theorem run_eq_some_iff (hx : ¬ x.time.IsLeap) : x.run step i = some y ↔
    y.secondCount = x.secondCount + i * step ∧ y.time.nanosecond = x.time.nanosecond := by
  rw [run, addSeconds?_of_not_isLeap hx, withSecondCount?_eq_some_iff]

/-- **A run that has left the calendar does not come back.** -/
theorem run_eq_none_of_le (hx : ¬ x.time.IsLeap) (hij : i ≤ j) (h : x.run step i = none) :
    x.run step j = none := by
  have hdate := x.date.dayNumber_bounds
  have htime := x.time.seconds_mem
  have hi : (0 : Int) ≤ i := Int.natCast_nonneg i
  have hij' : (i : Int) ≤ j := Int.ofNat_le.mpr hij
  rw [run, addSeconds?_of_not_isLeap hx, withSecondCount?_eq_none_iff] at h ⊢
  unfold secondCount at h ⊢
  -- the run goes on in the direction in which it has left
  rcases Int.le_total 0 step with hstep | hstep
  · have hstart := Int.mul_nonneg hi hstep
    have hlater := Int.mul_le_mul_of_nonneg_right hij' hstep
    omega
  · have hstart := Int.mul_nonpos_of_nonneg_of_nonpos hi hstep
    have hlater := Int.mul_le_mul_of_nonpos_right hij' hstep
    omega

/-- Runs from moments some days apart stay as many days apart. -/
theorem addDays?_of_run {a b : DateTime} {n : Int} (hx : ¬ x.time.IsLeap)
    (h : x.addDays? n = some y) (ha : x.run step i = some a) (hb : y.run step i = some b) :
    ¬ a.time.IsLeap ∧ a.addDays? n = some b := by
  obtain ⟨ht, hnum⟩ := (addDays?_eq_some_iff hx).mp h
  obtain ⟨has, han⟩ := (run_eq_some_iff hx).mp ha
  obtain ⟨hbs, hbn⟩ := (run_eq_some_iff (by rwa [ht])).mp hb
  have hleap : ¬ a.time.IsLeap := by
    unfold TimeOfDay.IsLeap at hx ⊢
    rwa [han]
  rw [addDays?, addSeconds?_of_not_isLeap hleap, withSecondCount?_eq_some_iff]
  refine ⟨hleap, ?_, by rw [hbn, ht, han]⟩
  rw [hbs, has, secondCount, secondCount, ht, hnum]
  omega

end DateTime

namespace Gregorian

variable {x y : DateTime} {step : Int} {k : Int} {s : Schedule}

/-- **The samples of a run end where the calendar ends.**  From some place on there is no moment,
and before it every sample is that of a verdict. -/
theorem samples_run (hx : ¬ x.time.IsLeap) (s : Schedule) (step : Int) (count : Nat) :
    ∃ n ≤ count, (∀ i < n, ∃ y, x.run step i = some y) ∧
      s.samples gregorian count (x.run step)
        = s.samples gregorian n (x.run step) ++ List.replicate (count - n) .noMoment := by
  induction count with
  | zero => exact ⟨0, Nat.le_refl 0, nofun, rfl⟩
  | succ count ih =>
      rcases hrun : x.run step count with _ | y
      · obtain ⟨n, hn, hmoments, hsamples⟩ := ih
        refine ⟨n, by omega, hmoments, ?_⟩
        rw [Schedule.samples_succ, hsamples, hrun, List.append_assoc,
          show count + 1 - n = count - n + 1 by omega, List.replicate_succ']
        rfl
      · -- the run has not left the calendar before its last moment
        refine ⟨count + 1, Nat.le_refl _, fun i hi => ?_, by simp⟩
        rcases hi' : x.run step i with _ | z
        · cases (DateTime.run_eq_none_of_le hx (by omega) hi').symm.trans hrun
        · exact ⟨z, rfl⟩

/-- The last second of the calendar is the last moment of a run. -/
example :
    let x : DateTime := ⟨⟨262142, 12, 31, by decide, by decide, by decide⟩,
      ⟨86398, 0, by decide, by decide⟩⟩
    ({ second := [.number 59] } : Schedule).samples gregorian 4 (x.run 1)
      = [.unmet, .met, .noMoment, .noMoment] := by
  decide +kernel

/-- **Runs repeat themselves after four centuries.**  Two runs of one step, any number of periods
of 146097 days apart, do not contradict each other at any place, if the schedule accepts all
years. -/
theorem samples_repeat (hyear : .any ∈ s.year) (hx : ¬ x.time.IsLeap)
    (h : x.addDays? (146097 * k) = some y) (step : Int) (count : Nat) :
    List.Forall₂ (fun p q => ∀ b b', p.answer? = some b → q.answer? = some b' → b = b')
      (s.samples gregorian count (x.run step)) (s.samples gregorian count (y.run step)) := by
  rw [Schedule.samples, Schedule.samples, List.forall₂_map_left_iff, List.forall₂_map_right_iff,
    List.forall₂_same]
  intro i _ p q hp hq
  obtain ⟨a, ha, hpa⟩ := Schedule.answer?_sample_eq_some_iff.mp hp
  obtain ⟨b, hb, hqb⟩ := Schedule.answer?_sample_eq_some_iff.mp hq
  obtain ⟨hleap, hab⟩ := DateTime.addDays?_of_run hx h ha hb
  obtain ⟨ht, hnum⟩ := (DateTime.addDays?_eq_some_iff hleap).mp hab
  have hmeets := Schedule.compatible_meets hyear hleap (Date.isPeriodsAfter_iff.mpr hnum) ht
  rw [← Compatible.evaluate hmeets hpa hqb] at hqb
  exact Except.ok.inj (hpa.symm.trans hqb)

end Gregorian

end Recurrence
