/-
# The outcomes of conditions

On the calendar of dates, and so on the Gregorian calendar away from leap seconds, every condition
is decided as its meaning says, whatever the candidate value (`Condition.settles`): it fails
exactly where `Condition.FailsOn` says, and answers as `Condition.Accepts` says otherwise.

This gives the exact border of the faults (`Condition.fault_border`) and the meaning of a whole
verdict, a conjunction over the fields of disjunctions over their conditions
(`Schedule.verdict_meaning`).
-/
import Recurrence.Proofs.Decision
import Recurrence.Proofs.Gregorian.Meaning

namespace Recurrence

/-! ## Settled outcomes -/

/-- The outcome of a test is settled: the fault of a search that leaves the calendar if `fails`,
and an answer that says whether `accepts` otherwise. -/
inductive Settles (fails accepts : Prop) : Except Fault Bool → Prop
  | fault (h : fails) : Settles fails accepts (.error .invalidDate)
  | answer (b : Bool) (h : ¬ fails) (hb : b = true ↔ accepts) : Settles fails accepts (.ok b)

namespace Settles

variable {fails accepts : Prop} {r : Except Fault Bool}

theorem answers (h : Settles fails accepts r) : Answers r accepts := by
  cases h with
  | fault h => exact Answers.error _ _
  | answer b h hb => exact Answers.ok hb

/-- The fault shows exactly where the search fails. -/
theorem eq_error_iff (h : Settles fails accepts r) (e : Fault) :
    r = .error e ↔ e = .invalidDate ∧ fails := by
  cases h with
  | fault h => exact ⟨fun he => ⟨(Except.error.inj he).symm, h⟩, fun he => by rw [he.1]⟩
  | answer b h hb => exact ⟨fun he => (by cases he), fun he => absurd he.2 h⟩

/-- There is an answer exactly where the search does not fail. -/
theorem isOk_iff (h : Settles fails accepts r) : (∃ b, r = .ok b) ↔ ¬ fails := by
  cases h with
  | fault h => exact ⟨fun ⟨_, hb⟩ => (by cases hb), fun hf => absurd h hf⟩
  | answer b h hb => exact ⟨fun _ => h, fun _ => ⟨b, rfl⟩⟩

/-- Where neither test fails they have to accept alike. -/
theorem compatible (h : Settles fails accepts r) {fails' accepts' : Prop} {r' : Except Fault Bool}
    (h' : Settles fails' accepts' r') (hiff : ¬ fails → ¬ fails' → (accepts ↔ accepts')) :
    Compatible r r' := by
  cases h with
  | fault => exact Compatible.error _ _
  | answer b hno hb =>
      cases h' with
      | fault => exact (Compatible.error _ _).symm
      | answer b' hno' hb' =>
          rw [Bool.eq_iff_iff.mpr (hb.trans ((hiff hno hno').trans hb'.symm))]
          exact Compatible.refl _

/-- A test that is made only under a guard and says no otherwise. -/
theorem guarded (h : Settles fails accepts r) (g : Prop) [Decidable g] :
    Settles (g ∧ fails) (g ∧ accepts) (if g then r else .ok false) := by
  by_cases hg : g
  · rw [if_pos hg]
    cases h with
    | fault h => exact Settles.fault ⟨hg, h⟩
    | answer b h hb => exact Settles.answer b (fun h' => h h'.2) (by simpa [hg] using hb)
  · rw [if_neg hg]
    exact Settles.answer false (fun h' => hg h'.1)
      (iff_of_false Bool.false_ne_true fun h' => hg h'.1)

end Settles

/-! ## Searches on dates -/

namespace dates

open Date (SameMonth)

variable {d e : Date} {fails accepts : Prop}

section Search

variable {r : Except Fault (Option Int32)}

/-- A search that fails settles that it fails. -/
theorem settles_of_fault (hr : r = .error .invalidDate) (hf : fails) :
    Settles fails accepts (do return (← r) = some (dates.day d)) := by
  rw [hr]
  exact Settles.fault hf

theorem settles_of_none (hr : r = .ok none) (hf : ¬ fails) (ha : ¬ accepts) :
    Settles fails accepts (do return (← r) = some (dates.day d)) := by
  rw [hr]
  exact Settles.answer false hf (iff_of_false Bool.false_ne_true ha)

/-- A search that finds a day settles whether it is this one. -/
theorem settles_of_day (hr : r = .ok (some (dates.day e))) (hf : ¬ fails)
    (ha : e.day = d.day ↔ accepts) :
    Settles fails accepts (do return (← r) = some (dates.day d)) := by
  rw [hr]
  refine Settles.answer _ hf ?_
  rw [decide_eq_true_eq, Option.some.injEq, day_eq_iff]
  exact ha

/-- A search that finds the day with a property settles whether a date has it. -/
theorem settles_of_exists {q : Date → Prop}
    (hfound : ∀ e, SameMonth d e → q e → r = .ok (some (dates.day e)))
    (he : ∃ e, SameMonth d e ∧ q e) (hf : ¬ fails) :
    Settles fails (q d) (do return (← r) = some (dates.day d)) := by
  obtain ⟨e, he, hq⟩ := he
  apply settles_of_day (hfound e he hq) hf
  constructor
  · intro hday
    rwa [← he.eq_of_day_eq hday]
  · -- the search has one outcome, so the two days are one
    intro hqd
    have hsame := (hfound e he hq).symm.trans (hfound d (SameMonth.refl d) hqd)
    exact day_eq_iff.mp (Option.some.inj (Except.ok.inj hsame))

end Search

/-- The last day needs the month to have an end. -/
theorem settles_lastDay (d : Date) (v : Int32) :
    Settles d.IsLastMonth (v.toInt = d.lengthOfMonth)
      (do return v = dates.day (← dates.endOfMonth d)) := by
  by_cases hl : d.IsLastMonth
  · rw [endOfMonth_eq_error hl]
    exact Settles.fault hl
  · rw [endOfMonth_eq_ok hl]
    refine Settles.answer _ hl ?_
    rw [decide_eq_true_eq, ← Int32.toInt_inj, toInt_day]
    exact Iff.rfl

/-- So does the last weekday; in the very first month a number of no weekday leads off the
calendar. -/
theorem settles_lastWeekday (d : Date) (w : Int32) :
    Settles (d.IsLastMonth ∨ (d.IsFirstMonth ∧ ¬ (0 ≤ w.toInt ∧ w.toInt ≤ 7)))
      (d.IsLastOn w.toInt) (do return (← dates.lastWeekday d w) = some (dates.day d)) := by
  by_cases hl : d.IsLastMonth
  · exact settles_of_fault (lastWeekday_of_isLastMonth hl w) (Or.inl hl)
  · by_cases hw : 0 ≤ w.toInt ∧ w.toInt ≤ 7
    · refine settles_of_exists (fun e he hq => lastWeekday_of_isLastOn hl he hq)
        (d.exists_isLastOn hw) ?_
      rintro (h | h)
      · exact hl h
      · exact h.2 hw
    · have hs := lastWeekday_of_not_weekday hl hw
      by_cases hf : d.IsFirstMonth
      · rw [if_pos hf] at hs
        exact settles_of_fault hs (Or.inr ⟨hf, hw⟩)
      · rw [if_neg hf] at hs
        refine settles_of_none hs ?_ fun h => hw h.1.1
        rintro (h | h)
        · exact hl h
        · exact hf h.1

theorem settles_lastWorkday (d : Date) :
    Settles d.IsLastMonth d.IsLastWorkday
      (do return (← dates.lastWorkday d) = some (dates.day d)) := by
  by_cases hl : d.IsLastMonth
  · exact settles_of_fault (lastWorkday_of_isLastMonth hl) hl
  · exact settles_of_exists (fun e he hq => lastWorkday_of_isLastWorkday hl he hq)
      d.exists_isLastWorkday hl

/-- The search by number fails where it has to go on or back off the calendar. -/
theorem settles_nthWeekday (d : Date) (w n : Int32) :
    Settles
      (if n = 0 then d.IsFirstMonth
        else d.IsLastMonth ∧ ∀ e, SameMonth d e → ¬ e.IsNthOn w.toInt n.toInt)
      (if n = 0 then ∃ e : Date, e.dayNumber = d.firstOfMonth.dayNumber - 1 ∧ e.day = d.day
        else d.IsNthOn w.toInt n.toInt)
      (do return (← dates.nthWeekday d w n) = some (dates.day d)) := by
  by_cases hz : n = 0
  · rw [if_pos hz, if_pos hz, hz]
    by_cases hf : d.IsFirstMonth
    · exact settles_of_fault (nthWeekday_zero_of_isFirstMonth hf) hf
    · have hfirst := Date.firstNumber_add_le hf
      have hb := d.firstOfMonth.dayNumber_bounds
      obtain ⟨e, he⟩ := Date.exists_dayNumber_eq (n := d.firstOfMonth.dayNumber - 1) (by omega)
      refine settles_of_day (nthWeekday_zero he) hf ⟨fun hday => ⟨e, he, hday⟩, ?_⟩
      rintro ⟨x, hx, hday⟩
      rwa [Date.dayNumber_injective (he.trans hx.symm)]
  · rw [if_neg hz, if_neg hz]
    by_cases hex : ∃ e, SameMonth d e ∧ e.IsNthOn w.toInt n.toInt
    · refine settles_of_exists (fun e he hq => nthWeekday_of_isNthOn he hq) hex ?_
      obtain ⟨e, he, hn⟩ := hex
      exact fun h => h.2 e he hn
    · have hno : ∀ e, SameMonth d e → ¬ e.IsNthOn w.toInt n.toInt :=
        fun e he hn => hex ⟨e, he, hn⟩
      have hs := nthWeekday_of_not_exists hz hno
      by_cases hl : d.IsLastMonth
      · rw [if_pos hl] at hs
        exact settles_of_fault hs ⟨hl, hno⟩
      · rw [if_neg hl] at hs
        exact settles_of_none hs (fun h => hl h.1) (hno d (SameMonth.refl d))

/-- The working day near an anchor fails with the anchor. -/
theorem settles_nearestWorkday (d : Date) (n : Int32) :
    Settles
      (d.IsLastMonth ∨ (n.toInt ≤ 0 ∧ d.firstOfMonth.dayNumber + (n.toInt - 1) < Date.firstNumber))
      (∃ a e : Date, a.dayNumber = d.firstOfMonth.dayNumber + (min n.toInt d.lengthOfMonth - 1) ∧
        Date.IsNearestWorkday a e ∧ e.day = d.day)
      (do return (← dates.nearestWorkday (← dates.anchorDay d n)) = dates.day d) := by
  have hb := d.firstOfMonth.dayNumber_bounds
  by_cases hl : d.IsLastMonth
  · rw [anchorDay_of_isLastMonth hl]
    exact Settles.fault (Or.inl hl)
  · by_cases hn : d.firstOfMonth.dayNumber + (n.toInt - 1) < Date.firstNumber
    · rw [anchorDay_eq_error hl hn]
      exact Settles.fault (Or.inr ⟨by omega, hn⟩)
    · have hlast := d.dayNumber_lastOfMonth
      have hfirst := d.dayNumber_firstOfMonth
      have hlb := d.lastOfMonth.dayNumber_bounds
      have hlen := d.lengthOfMonth_bounds
      obtain ⟨a, ha⟩ := Date.exists_dayNumber_eq
        (n := d.firstOfMonth.dayNumber + (min n.toInt d.lengthOfMonth - 1)) (by omega)
      obtain ⟨e, he, hs⟩ := exists_isNearestWorkday a
      rw [anchorDay_eq_ok hl ha]
      show Settles _ _ (do return (← dates.nearestWorkday a) = dates.day d)
      rw [hs]
      refine Settles.answer _ ?_ ?_
      · rintro (h | h)
        · exact hl h
        · exact hn h.2
      · rw [decide_eq_true_eq, day_eq_iff]
        constructor
        · intro hday
          exact ⟨a, e, ha, he, hday⟩
        · -- the anchor and its nearest working day are unique
          rintro ⟨a', e', ha', he', hday⟩
          rw [Date.dayNumber_injective (ha'.trans ha.symm)] at he'
          rwa [he.unique he']

end dates

/-! ## Conditions -/

namespace Condition

theorem inRange_iff_inCycle (first last v : Int32) :
    InRange first last v ↔ InCycle first.toInt last.toInt v.toInt :=
  inRange_iff first last v

theorem step_accepts_iff (f : Field) (base : StepBase) (k : UInt32) (d : Date) (v : Int32) :
    (¬ (f = .weekday ∧ v = 0) ∧ base.Progresses k v) ↔ (step base k).Accepts d f v.toInt := by
  have hv : v = 0 ↔ v.toInt = 0 := by rw [← Int32.toInt_inj, Int32.toInt_zero]
  rw [StepBase.progresses_iff, hv]
  cases base with
  | any =>
      show _ ∧ True ∧ _ ∧ (k.toNat : Int) ∣ v.toInt - 0 ↔ _ ∧ _ ∧ _
      rw [Int.sub_zero, true_and, Nat.pos_iff_ne_zero]
  | range first last =>
      show _ ∧ InRange first last v ∧ _ ∧ (k.toNat : Int) ∣ v.toInt - first.toInt ↔ _ ∧ _ ∧ _ ∧ _
      rw [inRange_iff_inCycle, Nat.pos_iff_ne_zero, and_left_comm (a := InCycle _ _ _)]

/-- On dates every condition is decided as its meaning says. -/
theorem settles_dates (d : Date) (f : Field) (v : Int32) (c : Condition) :
    Settles (c.FailsOn d f) (c.Accepts d f v.toInt) (c.holds dates d f v) := by
  cases c with
  | any => exact Settles.answer true id (iff_of_true rfl trivial)
  | number n =>
      refine Settles.answer _ id ?_
      rw [decide_eq_true_eq, ← Int32.toInt_inj]
      exact Iff.rfl
  | range first last =>
      refine Settles.answer _ id ?_
      rw [decide_eq_true_eq]
      exact inRange_iff_inCycle first last v
  | step base k =>
      refine Settles.answer _ id ?_
      rw [decide_eq_true_eq]
      exact step_accepts_iff f base k d v
  | lastDay => exact (dates.settles_lastDay d v).guarded _
  | nearestWorkday anchor =>
      cases anchor with
      | lastDay => exact (dates.settles_lastWorkday d).guarded _
      | day n => exact (dates.settles_nearestWorkday d n).guarded _
  | lastWeekday w => exact (dates.settles_lastWeekday d w).guarded _
  | nthWeekday w n => exact (dates.settles_nthWeekday d w n).guarded _

/-- **Away from leap seconds every condition is decided as its meaning says.** -/
theorem settles {x : DateTime} (h : ¬ x.time.IsLeap) (f : Field) (v : Int32) (c : Condition) :
    Settles (c.FailsOn x.date f) (c.Accepts x.date f v.toInt) (c.holds gregorian x f v) := by
  rw [Gregorian.gregorian_dates.holds_eq (Gregorian.onDate_of_not_isLeap h)]
  exact c.settles_dates x.date f v

/-- **The exact border of the faults.**  Away from leap seconds a condition fails exactly where
its search leaves the calendar, always with the same fault and whatever the candidate value, and
answers everywhere else. -/
theorem fault_border {x : DateTime} (h : ¬ x.time.IsLeap) (f : Field) (v : Int32) (c : Condition) :
    (∀ e, c.holds gregorian x f v = .error e ↔ e = .invalidDate ∧ c.FailsOn x.date f) ∧
      ((∃ b, c.holds gregorian x f v = .ok b) ↔ ¬ c.FailsOn x.date f) := by
  have hs := c.settles h f v
  exact ⟨hs.eq_error_iff, hs.isOk_iff⟩

/-- On the very first date of the calendar no weekday is the eighth. -/
theorem fault_border_first_date :
    (lastWeekday 8).holds gregorian
      ⟨⟨-262143, 1, 1, by decide, by decide, by decide⟩, ⟨0, 0, by decide, by decide⟩⟩ .weekday 4
      = .error .invalidDate :=
  ((fault_border (by decide) .weekday 4 (lastWeekday 8)).1 .invalidDate).mpr
    ⟨rfl, rfl, Or.inr ⟨⟨rfl, rfl⟩, by decide⟩⟩

end Condition

/-! ## Verdicts -/

namespace Schedule

variable {s : Schedule} {x : DateTime}

/-- Away from leap seconds a field is met if one of its conditions holds. -/
theorem answers_meets (s : Schedule) (h : ¬ x.time.IsLeap) (f : Field) :
    Answers (s.meets gregorian x f) (∃ c ∈ s.conditions f, c.HoldsOn x f) := by
  refine (Answers.anyHolds fun v c => (c.settles h f v).answers).congr ?_
  rw [x.exists_candidate_iff f (p := fun v => ∃ c ∈ s.conditions f, c.Accepts x.date f v)]
  constructor
  · rintro ⟨v, hv, c, hc, hacc⟩
    exact ⟨c, hc, (c.exists_accepts_iff x f).mp ⟨v, hv, hacc⟩⟩
  · rintro ⟨c, hc, hholds⟩
    obtain ⟨v, hv, hacc⟩ := (c.exists_accepts_iff x f).mpr hholds
    exact ⟨v, hv, c, hc, hacc⟩

/-- **The meaning of a verdict.**  Away from leap seconds, a schedule that is not for boot time
says yes exactly if on every field some condition holds; and it says something if none of its
conditions fails. -/
theorem verdict_meaning (hb : s.reboot = false) (h : ¬ x.time.IsLeap) :
    (∀ b, (s.evaluate gregorian x).result = .ok b →
      (b = true ↔ ∀ f, ∃ c ∈ s.conditions f, c.HoldsOn x f)) ∧
    ((∀ f, ∀ c ∈ s.conditions f, ¬ c.FailsOn x.date f) →
      ∃ b, (s.evaluate gregorian x).result = .ok b) := by
  refine ⟨Answers.evaluate hb (s.answers_meets h), ?_⟩
  intro hno
  apply evaluate_ok hb
  intro f
  apply anyHolds_ok
  intro v c hc
  exact (c.settles h f v).isOk_iff.mpr (hno f c hc)

/-- Noon of a leap day is in a schedule for the last days of all months. -/
theorem verdict_meaning_leap_day :
    (({ day := [.lastDay] } : Schedule).evaluate gregorian
      ⟨⟨2024, 2, 29, by decide, by decide, by decide⟩, ⟨43200, 0, by decide, by decide⟩⟩).result
      = .ok true := by
  obtain ⟨hmean, hok⟩ := verdict_meaning (s := { day := [.lastDay] })
    (x := ⟨⟨2024, 2, 29, by decide, by decide, by decide⟩, ⟨43200, 0, by decide, by decide⟩⟩)
    rfl (by decide)
  obtain ⟨b, hb⟩ := hok (by
    intro f c hc hfails
    cases f with
    | day =>
        rw [List.mem_singleton.mp hc] at hfails
        exact absurd hfails.2 (by decide)
    | second | minute | hour | month | weekday | year =>
        rw [List.mem_singleton.mp hc] at hfails
        exact hfails)
  have htrue : b = true := (hmean b hb).mpr (by
    intro f
    cases f with
    | day => exact ⟨.lastDay, List.mem_singleton_self _, rfl, rfl⟩
    | second | minute | hour | month | weekday | year =>
        exact ⟨.any, List.mem_singleton_self _, trivial⟩)
  rw [hb, htrue]

end Schedule

end Recurrence
