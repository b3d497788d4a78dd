/-
# Where faults come from

Nothing in a schedule fails by itself.  A fault of a verdict is, unchanged, the fault of a calendar
step, taken from the moment under test or from a moment to which successful steps lead
(`Calendar.Raises`).  Only the searches through a month take steps, so there has to be a condition
that makes one, on a field that is reached (`Schedule.fault_provenance`).

The searches are followed exit by exit.  `Calendar.faultsIn_after` is the key fact: a step raises its
own fault or leads to a moment, and what is raised from there is raised from the first moment too.
-/
import Mathlib.Logic.Relation
import Recurrence.Calendar.Journey
import Recurrence.Proofs.ConditionOrder
import Recurrence.Proofs.FieldOrder

namespace Recurrence

variable {α β τ : Type}

/-! ## Faults of an outcome -/

/-- The outcome has no other faults than those with the property `P`. -/
def FaultsIn (P : Fault → Prop) (r : Except Fault α) : Prop := ∀ e, r = .error e → P e

namespace FaultsIn

variable {P Q : Fault → Prop}

theorem ok (a : α) : FaultsIn P (.ok a : Except Fault α) := nofun

theorem mono {r : Except Fault α} (h : FaultsIn P r) (hPQ : ∀ e, P e → Q e) : FaultsIn Q r :=
  fun e he => hPQ e (h e he)

/-- Faults of two tests in a row are faults of the first or of the second. -/
theorem bind {x : Except Fault α} {k : α → Except Fault β} (hx : FaultsIn P x)
    (hk : ∀ a, x = .ok a → FaultsIn P (k a)) : FaultsIn P (x >>= k) := by
  intro e he
  rcases x with e' | a
  · exact hx e (congrArg Except.error (Except.error.inj he))
  · exact hk a rfl e he

/-- An answer read off a result adds no fault. -/
theorem map {x : Except Fault α} (hx : FaultsIn P x) (g : α → β) :
    FaultsIn P (do return g (← x)) :=
  hx.bind fun a _ => ok (g a)

/-- A choice has no other faults than its two branches. -/
theorem ite {r r' : Except Fault α} (p : Prop) [Decidable p] (h : FaultsIn P r)
    (h' : FaultsIn P r') : FaultsIn P (if p then r else r') := by
  split
  · exact h
  · exact h'

end FaultsIn

/-! ## Steps -/

/-- The length of the step fits in 64 bits. -/
def Step.Fits : Step → Prop
  | endOfMonth | beginningOfMonth => True
  | shiftDays n => -9223372036854775808 ≤ n ∧ n ≤ 9223372036854775807

instance (a : Step) : Decidable a.Fits :=
  match a with
  | .endOfMonth | .beginningOfMonth => inferInstanceAs (Decidable True)
  | .shiftDays _ => inferInstanceAs (Decidable (_ ∧ _))

namespace Calendar

variable {C : Calendar τ} {t u : τ}

/-- Successful steps lead from one moment to another. -/
def Reaches (C : Calendar τ) : τ → τ → Prop :=
  Relation.ReflTransGen fun u v => ∃ a : Step, a.Fits ∧ C.step u a = .ok v

/-- The fault is that of a step from `t` or from a moment to which successful steps lead. -/
def Raises (C : Calendar τ) (t : τ) (e : Fault) : Prop :=
  ∃ u a, C.Reaches t u ∧ a.Fits ∧ C.step u a = .error e

/-- One step reaches its end. -/
theorem Reaches.of_step {a : Step} (ha : a.Fits) (h : C.step t a = .ok u) : C.Reaches t u :=
  Relation.ReflTransGen.single ⟨a, ha, h⟩

/-- Faults raised from a moment on the way are raised from the start. -/
theorem Reaches.raises (h : C.Reaches t u) {e : Fault} (he : C.Raises u e) : C.Raises t e := by
  obtain ⟨v, a, hv, ha, hs⟩ := he
  exact ⟨v, a, h.trans hv, ha, hs⟩

/-- **A step and what follows it** raise faults of steps only, if what follows does. -/
theorem faultsIn_after {k : τ → Except Fault α} {a : Step} (ha : a.Fits)
    (hk : ∀ u, C.Reaches t u → FaultsIn (C.Raises t) (k u)) :
    FaultsIn (C.Raises t) (C.step t a >>= k) := by
  apply FaultsIn.bind
  · exact fun e he => ⟨t, a, .refl, ha, he⟩
  · exact fun u hu => hk u (Reaches.of_step ha hu)

/-! ## Searches through a month -/

/-- The walk back fails only in a step, by induction on the days that are left. -/
theorem searchBack_faultsIn (accept : UInt32 → Bool) (n : Nat) (t : τ) :
    FaultsIn (C.Raises t) (C.searchBack accept n t) := by
  induction n generalizing t with
  | zero => exact FaultsIn.ok none
  | succ n ih =>
      apply FaultsIn.ite
      · exact FaultsIn.ok _
      · refine faultsIn_after (a := .shiftDays (-1)) (by decide) fun u hu => ?_
        exact (ih u).mono fun e he => hu.raises he

theorem countForward_faultsIn (month w : Int32) (n : Nat) (remaining : Int32) (t : τ) :
    FaultsIn (C.Raises t) (C.countForward month w n remaining t) := by
  induction n generalizing t remaining with
  | zero => exact FaultsIn.ok none
  | succ n ih =>
      -- after a step the walk goes on, with the count lowered or not
      have hnext : ∀ r, FaultsIn (C.Raises t)
          (do countForward C month w n r (← C.shiftDays t 1)) := fun r =>
        faultsIn_after (a := .shiftDays 1) (by decide) fun u hu =>
          (ih r u).mono fun e he => hu.raises he
      apply FaultsIn.ite
      · exact FaultsIn.ok none
      · apply FaultsIn.ite
        · exact FaultsIn.ite _ (FaultsIn.ok _) (hnext _)
        · exact hnext _

theorem lastWeekday_faultsIn (t : τ) (w : Int32) :
    FaultsIn (C.Raises t) (C.lastWeekday t w) :=
  faultsIn_after (a := .endOfMonth) trivial fun u hu =>
    (searchBack_faultsIn _ _ u).mono fun _ he => hu.raises he

theorem lastWorkday_faultsIn (t : τ) : FaultsIn (C.Raises t) (C.lastWorkday t) :=
  faultsIn_after (a := .endOfMonth) trivial fun u hu =>
    (searchBack_faultsIn _ _ u).mono fun _ he => hu.raises he

/-- The search by number fails only in a step, also for the number zero. -/
theorem nthWeekday_faultsIn (t : τ) (w nth : Int32) :
    FaultsIn (C.Raises t) (C.nthWeekday t w nth) := by
  refine faultsIn_after (a := .beginningOfMonth) trivial fun start hstart => ?_
  refine FaultsIn.mono (P := C.Raises start) ?_ fun e he => hstart.raises he
  apply FaultsIn.ite
  · exact faultsIn_after (a := .shiftDays (-1)) (by decide) fun u _ => FaultsIn.ok _
  · exact countForward_faultsIn _ _ _ _ start

/-- A step within the month fails in one of its two attempts. -/
theorem shiftWithin_faultsIn (t : τ) {towards away : Int} (ht : (Step.shiftDays towards).Fits)
    (ha : (Step.shiftDays away).Fits) : FaultsIn (C.Raises t) (C.shiftWithin t towards away) := by
  refine faultsIn_after (a := .shiftDays towards) ht fun s _ => ?_
  apply FaultsIn.ite
  · exact FaultsIn.ok _
  · exact faultsIn_after (a := .shiftDays away) ha fun r _ => FaultsIn.ok _

theorem nearestWorkday_faultsIn (t : τ) : FaultsIn (C.Raises t) (C.nearestWorkday t) := by
  apply FaultsIn.ite
  · exact shiftWithin_faultsIn t (by decide) (by decide)
  · exact FaultsIn.ite _ (shiftWithin_faultsIn t (by decide) (by decide)) (FaultsIn.ok _)

/-- Any 32-bit number less one fits in 64 bits. -/
theorem fits_anchor (d : Int32) : (Step.shiftDays (d.toInt - 1)).Fits := by
  have h₁ := Int32.le_toInt d
  have h₂ := Int32.toInt_lt d
  constructor <;> omega

/-- The anchor is looked for by steps. -/
theorem anchorDay_faultsIn (t : τ) (d : Int32) : FaultsIn (C.Raises t) (C.anchorDay t d) := by
  refine faultsIn_after (a := .endOfMonth) trivial fun last _ => ?_
  apply FaultsIn.ite
  · exact FaultsIn.ok last
  · refine faultsIn_after (a := .beginningOfMonth) trivial fun start hstart => ?_
    exact fun e he => hstart.raises ⟨start, .shiftDays _, .refl, fits_anchor d, he⟩

/-- Steps lead to the anchor. -/
theorem reaches_anchorDay {d : Int32} (h : C.anchorDay t d = .ok u) : C.Reaches t u := by
  rw [anchorDay] at h
  rcases hlast : C.endOfMonth t with e | last
  · rw [hlast] at h
    cases h
  · rw [hlast] at h
    change (if C.day last < d then _ else _) = _ at h
    split at h
    · cases h
      exact Reaches.of_step (a := .endOfMonth) trivial hlast
    · rcases hstart : C.beginningOfMonth t with e | start
      · rw [hstart] at h
        cases h
      · rw [hstart] at h
        exact (Reaches.of_step (a := .beginningOfMonth) trivial hstart).trans
          (Reaches.of_step (a := .shiftDays _) (fits_anchor d) h)

end Calendar

/-! ## Conditions -/

namespace Condition

/-- The condition on the field `f` is decided by a search through the month. -/
def Searches (f : Field) : Condition → Prop
  | lastDay | nearestWorkday _ => f = .day
  | lastWeekday _ | nthWeekday _ _ => f = .weekday
  | any | number _ | range _ _ | step _ _ => False

variable {C : Calendar τ} {t : τ} {f : Field}

theorem isNearestWorkday_faultsIn (t : τ) (anchor : DayAnchor) :
    FaultsIn (C.Raises t) (isNearestWorkday C t anchor) := by
  cases anchor with
  | lastDay => exact (C.lastWorkday_faultsIn t).map _
  | day d =>
      apply (C.anchorDay_faultsIn t d).bind
      intro a ha
      refine FaultsIn.map ?_ _
      exact (C.nearestWorkday_faultsIn a).mono fun e he => (C.reaches_anchorDay ha).raises he

/-- A condition raises the faults of steps only. -/
theorem holds_faultsIn (t : τ) (f : Field) (v : Int32) (c : Condition) :
    FaultsIn (C.Raises t) (c.holds C t f v) := by
  cases c with
  | any | number | range | step => exact FaultsIn.ok _
  | lastDay =>
      refine FaultsIn.ite _ ?_ (FaultsIn.ok false)
      exact Calendar.faultsIn_after (a := .endOfMonth) trivial fun u _ => FaultsIn.ok _
  | nearestWorkday anchor =>
      exact FaultsIn.ite _ (isNearestWorkday_faultsIn t anchor) (FaultsIn.ok false)
  | lastWeekday w =>
      exact FaultsIn.ite _ ((C.lastWeekday_faultsIn t w).map _) (FaultsIn.ok false)
  | nthWeekday w nth =>
      exact FaultsIn.ite _ ((C.nthWeekday_faultsIn t w nth).map _) (FaultsIn.ok false)

/-- A condition that makes no search is decided on every calendar. -/
theorem exists_holds_of_not_searches {c : Condition} (h : ¬ c.Searches f) (t : τ) (v : Int32) :
    ∃ b, c.holds C t f v = .ok b := by
  cases c with
  | any | number | range | step => exact ⟨_, rfl⟩
  | lastDay | nearestWorkday | lastWeekday | nthWeekday => exact ⟨false, if_neg h⟩

/-- Faults of a list are faults of its conditions. -/
theorem exists_of_anyHolds_eq_error {l : List Condition} {e : Fault}
    (h : anyHolds C t f l = .error e) : any ∉ l ∧ ∃ c ∈ l, ∃ v, c.holds C t f v = .error e := by
  have hany : any ∉ l := by
    intro hmem
    cases (anyHolds_of_mem C t f hmem).symm.trans h
  rw [anyHolds_eq_anyM_pairs hany] at h
  obtain ⟨q, hq, he⟩ := exists_of_anyM_eq_error h
  exact ⟨hany, q.2, (mem_pairs.mp hq).2, q.1, he⟩

end Condition

/-! ## Verdicts -/

namespace Schedule

variable {s : Schedule} {C : Calendar τ} {t : τ}

/-- A field that fails has a condition that searches the month, and the fault is that of a step. -/
theorem searches_of_meets_eq_error {f : Field} {e : Fault} (h : s.meets C t f = .error e) :
    .any ∉ s.conditions f ∧ (∃ c ∈ s.conditions f, c.Searches f) ∧ C.Raises t e := by
  obtain ⟨hany, c, hc, v, he⟩ := Condition.exists_of_anyHolds_eq_error h
  refine ⟨hany, ⟨c, hc, ?_⟩, c.holds_faultsIn t f v e he⟩
  by_cases hs : c.Searches f
  · exact hs
  · obtain ⟨b, hb⟩ := Condition.exists_holds_of_not_searches hs t v (C := C)
    cases hb.symm.trans he

/-- The fault of a verdict is that of the first field that is not met. -/
theorem exists_of_result_eq_error (hb : s.reboot = false) {e : Fault}
    (h : (s.evaluate C t).result = .error e) :
    ∃ f, s.MetBefore C t f ∧ s.meets C t f = .error e ∧ .any ∉ s.conditions f ∧
      (∃ c ∈ s.conditions f, c.Searches f) ∧ C.Raises t e := by
  obtain ⟨f, hf, he⟩ := ((conjoins_evaluate C t hb).fault_iff e).mp h
  exact ⟨f, hf, he, searches_of_meets_eq_error he⟩

/-- **Where the faults of a verdict come from.**  Without the boot flag a fault is, unchanged, that
of a calendar step on the way of a search through the month, made for a condition on the day or the
weekday, the fields before it being met.  So a schedule without such conditions never fails, and on
a calendar whose steps never fail only a schedule for boot time does. -/
theorem fault_provenance (s : Schedule) (C : Calendar τ) (t : τ) :
    (s.reboot = false → ∀ e, (s.evaluate C t).result = .error e →
      ∃ f, (f = .day ∨ f = .weekday) ∧ s.MetBefore C t f ∧ s.meets C t f = .error e ∧
        .any ∉ s.conditions f ∧ (∃ c ∈ s.conditions f, c.Searches f) ∧ C.Raises t e) ∧
    (s.reboot = false → (∀ f, ∀ c ∈ s.conditions f, ¬ c.Searches f) →
      ∃ b, (s.evaluate C t).result = .ok b) ∧
    ((∀ u (a : Step), a.Fits → ∃ v, C.step u a = .ok v) →
      ((∃ e, (s.evaluate C t).result = .error e) ↔ s.reboot = true)) := by
  refine ⟨?_, ?_, ?_⟩
  · intro hb e he
    obtain ⟨f, hf, hm, hany, ⟨c, hc, hs⟩, hraise⟩ := exists_of_result_eq_error hb he
    refine ⟨f, ?_, hf, hm, hany, ⟨c, hc, hs⟩, hraise⟩
    cases c with
    | any | number | range | step => exact hs.elim
    | lastDay | nearestWorkday => exact Or.inl hs
    | lastWeekday | nthWeekday => exact Or.inr hs
  · intro hb hno
    rcases hr : (s.evaluate C t).result with e | b
    · obtain ⟨f, -, -, -, ⟨c, hc, hs⟩, -⟩ := exists_of_result_eq_error hb hr
      exact absurd hs (hno f c hc)
    · exact ⟨b, rfl⟩
  · intro hsteps
    constructor
    · rintro ⟨e, he⟩
      cases hb : s.reboot with
      | true => rfl
      | false =>
          obtain ⟨f, -, -, -, -, u, a, -, ha, hs⟩ := exists_of_result_eq_error hb he
          obtain ⟨v, hv⟩ := hsteps u a ha
          cases hv.symm.trans hs
    · intro hb
      rw [evaluate, evaluateOn_of_reboot Field.all C t hb]
      exact ⟨_, rfl⟩

/-- On the last date of the calendar the fault of the last day is that of a step.  The last Friday
fails there too, but not on the list of the day, and on a calendar of one moment, whose steps lead
nowhere else, neither does. -/
theorem fault_provenance_last_date :
    let x : DateTime := ⟨⟨262142, 12, 31, by decide, by decide, by decide⟩,
      ⟨0, 0, by decide, by decide⟩⟩
    let still : Calendar Unit :=
      { endOfMonth _ := .ok (), beginningOfMonth _ := .ok (), shiftDays _ _ := .ok (),
        weekday _ := 1, field _ _ := 1 }
    gregorian.Raises x .invalidDate ∧
      (∃ b, (({ day := [.lastWeekday 5] } : Schedule).evaluate gregorian x).result = .ok b) ∧
      ¬ ∃ e, (({ weekday := [.lastWeekday 5] } : Schedule).evaluate still ()).result = .error e := by
  intro x still
  refine ⟨?_, ?_, ?_⟩
  · obtain ⟨f, -, -, -, -, -, hraise⟩ :=
      (fault_provenance { day := [.lastDay] } gregorian x).1 rfl .invalidDate rfl
    exact hraise
  · refine (fault_provenance { day := [.lastWeekday 5] } gregorian x).2.1 rfl ?_
    intro f c hc hs
    cases f <;> cases List.mem_singleton.mp hc <;> cases hs
  · rw [(fault_provenance { weekday := [.lastWeekday 5] } still ()).2.2]
    · exact Bool.false_ne_true
    · intro u a _
      cases a <;> exact ⟨(), rfl⟩

end Schedule

end Recurrence
