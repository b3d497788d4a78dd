/-
# Calendars in step

A schedule sees a calendar only through its operations.  Two calendars run in step if a relation
between their moments is kept by the three steps, faults included, and related moments have the
same day, month and weekday number (`DateSimulation`).

From related moments the searches through a month have the same outcome on both calendars, by
induction on the days they visit (`ReadsAlike.searchBack_eq`, `ReadsAlike.countForward_eq`), and so
has every list of conditions on a field with one value (`DateSimulation.anyHolds_eq`).
-/
import Recurrence.Proofs.Decision

namespace Recurrence

variable {α β γ δ : Type}

/-! ## Outcomes that agree -/

/-- Two outcomes agree: the same fault, or results that are related. -/
def OutcomesAgree (R : α → β → Prop) : Except Fault α → Except Fault β → Prop
  | .ok a, .ok b => R a b
  | .error e, .error e' => e = e'
  | _, _ => False

namespace OutcomesAgree

variable {R : α → β → Prop} {x : Except Fault α} {y : Except Fault β}

/-- Either both fail with one fault, or both arrive and are related. -/
theorem cases (h : OutcomesAgree R x y) :
    (∃ e, x = .error e ∧ y = .error e) ∨ ∃ a b, x = .ok a ∧ y = .ok b ∧ R a b := by
  cases x with
  | error e =>
      cases y with
      | error e' =>
          have he : e = e' := h
          exact Or.inl ⟨e, rfl, by rw [he]⟩
      | ok b => exact h.elim
  | ok a =>
      cases y with
      | error e => exact h.elim
      | ok b => exact Or.inr ⟨a, b, rfl, rfl, h⟩

/-- Going on alike from related results gives one outcome. -/
theorem bind_eq (h : OutcomesAgree R x y) {k : α → Except Fault γ} {l : β → Except Fault γ}
    (hk : ∀ a b, R a b → k a = l b) : (x >>= k) = (y >>= l) := by
  obtain ⟨e, rfl, rfl⟩ | ⟨a, b, rfl, rfl, hab⟩ := h.cases
  · rfl
  · exact hk a b hab

/-- Going on from related results to outcomes that agree gives outcomes that agree. -/
theorem bind (h : OutcomesAgree R x y) {S : γ → δ → Prop} {k : α → Except Fault γ}
    {l : β → Except Fault δ} (hk : ∀ a b, R a b → OutcomesAgree S (k a) (l b)) :
    OutcomesAgree S (x >>= k) (y >>= l) := by
  obtain ⟨e, rfl, rfl⟩ | ⟨a, b, rfl, rfl, hab⟩ := h.cases
  · rfl
  · exact hk a b hab

/-- What both results are known to be may be added to the relation. -/
theorem imp (h : OutcomesAgree R x y) {S : α → β → Prop}
    (hS : ∀ a b, x = .ok a → y = .ok b → R a b → S a b) : OutcomesAgree S x y := by
  obtain ⟨e, rfl, rfl⟩ | ⟨a, b, rfl, rfl, hab⟩ := h.cases
  · rfl
  · exact hS a b rfl rfl hab

end OutcomesAgree

/-! ## The searches through a month -/

/-- Related moments have the same place in the week and in the year. -/
structure ReadsAlike (A : Calendar α) (B : Calendar β) (R : α → β → Prop) : Prop where
  weekday : ∀ {a b}, R a b → A.weekday a = B.weekday b
  day : ∀ {a b}, R a b → A.day a = B.day b
  month : ∀ {a b}, R a b → A.month a = B.month b

namespace ReadsAlike

variable {A : Calendar α} {B : Calendar β} {R : α → β → Prop}

/-- Walking back from related days finds the same day, if steps back keep the relation. -/
theorem searchBack_eq (h : ReadsAlike A B R)
    (back : ∀ {a b}, R a b → OutcomesAgree R (A.shiftDays a (-1)) (B.shiftDays b (-1)))
    (accept : UInt32 → Bool) (n : Nat) {a : α} {b : β} (hab : R a b) :
    A.searchBack accept n a = B.searchBack accept n b := by
  induction n generalizing a b with
  | zero => rfl
  | succ n ih =>
      rw [Calendar.searchBack, Calendar.searchBack, h.weekday hab, h.day hab]
      -- both walks stop on this day, or both step back from it
      by_cases hacc : accept (B.weekday b)
      · rw [if_pos hacc, if_pos hacc]
      · rw [if_neg hacc, if_neg hacc]
        exact (back hab).bind_eq fun a' b' hab' => ih hab'

/-- Counting on from related days finds the same day, if steps forward keep the relation. -/
theorem countForward_eq (h : ReadsAlike A B R)
    (forward : ∀ {a b}, R a b → OutcomesAgree R (A.shiftDays a 1) (B.shiftDays b 1))
    (month w : Int32) (n : Nat) (remaining : Int32) {a : α} {b : β} (hab : R a b) :
    A.countForward month w n remaining a = B.countForward month w n remaining b := by
  induction n generalizing a b remaining with
  | zero => rfl
  | succ n ih =>
      rw [Calendar.countForward, Calendar.countForward, h.weekday hab, h.day hab, h.month hab]
      -- the month, the weekday and the count are the same, so both walks go the same way
      by_cases hm : B.month b ≠ month
      · rw [if_pos hm, if_pos hm]
      · rw [if_neg hm, if_neg hm]
        by_cases hw : Calendar.SameWeekday (B.weekday b) w
        · rw [if_pos hw, if_pos hw]
          by_cases hz : remaining - 1 = 0
          · rw [if_pos hz, if_pos hz]
          · rw [if_neg hz, if_neg hz]
            exact (forward hab).bind_eq fun a' b' hab' => ih (remaining - 1) hab'
        · rw [if_neg hw, if_neg hw]
          exact (forward hab).bind_eq fun a' b' hab' => ih remaining hab'

end ReadsAlike

/-! ## Simulations of dates -/

/-- Related moments have the same place in the week and in the year, and every step keeps them
related.  Steps are counted in 64 bits. -/
structure DateSimulation (A : Calendar α) (B : Calendar β) (R : α → β → Prop) : Prop
    extends ReadsAlike A B R where
  endOfMonth : ∀ {a b}, R a b → OutcomesAgree R (A.endOfMonth a) (B.endOfMonth b)
  beginningOfMonth : ∀ {a b}, R a b →
    OutcomesAgree R (A.beginningOfMonth a) (B.beginningOfMonth b)
  shiftDays : ∀ {a b} (n : Int64), R a b →
    OutcomesAgree R (A.shiftDays a n.toInt) (B.shiftDays b n.toInt)

namespace DateSimulation

variable {A : Calendar α} {B : Calendar β} {R : α → β → Prop}

/-- A step whose length 64 bits can hold keeps moments related. -/
theorem shift (h : DateSimulation A B R) {n : Int} (hn : (Int64.ofInt n).toInt = n) {a : α} {b : β}
    (hab : R a b) : OutcomesAgree R (A.shiftDays a n) (B.shiftDays b n) := by
  have hs := h.shiftDays (Int64.ofInt n) hab
  rwa [hn] at hs

/-- Both calendars find the same last day on a weekday. -/
theorem lastWeekday_eq (h : DateSimulation A B R) {a : α} {b : β} (hab : R a b) (w : Int32) :
    A.lastWeekday a w = B.lastWeekday b w :=
  (h.endOfMonth hab).bind_eq fun _ _ hab' =>
    h.searchBack_eq (h.shift (by decide)) _ _ hab'

theorem lastWorkday_eq (h : DateSimulation A B R) {a : α} {b : β} (hab : R a b) :
    A.lastWorkday a = B.lastWorkday b :=
  (h.endOfMonth hab).bind_eq fun _ _ hab' =>
    h.searchBack_eq (h.shift (by decide)) _ _ hab'

theorem nthWeekday_eq (h : DateSimulation A B R) {a : α} {b : β} (hab : R a b) (w nth : Int32) :
    A.nthWeekday a w nth = B.nthWeekday b w nth := by
  apply (h.beginningOfMonth hab).bind_eq
  intro start start' hstart
  by_cases hz : nth = 0
  · rw [if_pos hz, if_pos hz]
    apply (h.shift (by decide) hstart).bind_eq
    intro p p' hp
    rw [h.day hp]
  · rw [if_neg hz, if_neg hz, h.month hstart]
    exact h.countForward_eq (h.shift (by decide)) _ _ _ _ hstart

/-- Both calendars stay in the month or turn round. -/
theorem shiftWithin_eq (h : DateSimulation A B R) {towards away : Int}
    (ht : (Int64.ofInt towards).toInt = towards) (ha : (Int64.ofInt away).toInt = away)
    {a : α} {b : β} (hab : R a b) :
    A.shiftWithin a towards away = B.shiftWithin b towards away := by
  apply (h.shift ht hab).bind_eq
  intro s s' hs
  rw [h.month hs, h.month hab, h.day hs]
  by_cases hm : B.month s' = B.month b
  · rw [if_pos hm, if_pos hm]
  · rw [if_neg hm, if_neg hm]
    apply (h.shift ha hab).bind_eq
    intro r r' hr
    rw [h.day hr]

theorem nearestWorkday_eq (h : DateSimulation A B R) {a : α} {b : β} (hab : R a b) :
    A.nearestWorkday a = B.nearestWorkday b := by
  rw [Calendar.nearestWorkday, Calendar.nearestWorkday, h.weekday hab, h.day hab,
    h.shiftWithin_eq (by decide) (by decide) hab, h.shiftWithin_eq (by decide) (by decide) hab]

/-- The anchor is rebuilt by steps, so it stays related. -/
theorem anchorDay_agree (h : DateSimulation A B R) {a : α} {b : β} (hab : R a b) (d : Int32) :
    OutcomesAgree R (A.anchorDay a d) (B.anchorDay b d) := by
  have hd₁ := Int32.le_toInt d
  have hd₂ := Int32.toInt_lt d
  apply (h.endOfMonth hab).bind
  intro last last' hlast
  rw [h.day hlast]
  by_cases hl : B.day last' < d
  · rw [if_pos hl, if_pos hl]
    exact hlast
  · rw [if_neg hl, if_neg hl]
    have hn : (Int64.ofInt (d.toInt - 1)).toInt = d.toInt - 1 :=
      Int64.toInt_ofInt_of_le (by omega) (by omega)
    exact (h.beginningOfMonth hab).bind fun start start' hstart => h.shift hn hstart

/-! ## Conditions -/

theorem isNearestWorkday_eq (h : DateSimulation A B R) {a : α} {b : β} (hab : R a b)
    (anchor : DayAnchor) :
    Condition.isNearestWorkday A a anchor = Condition.isNearestWorkday B b anchor := by
  cases anchor with
  | lastDay =>
      rw [Condition.isNearestWorkday, Condition.isNearestWorkday, h.lastWorkday_eq hab, h.day hab]
  | day d =>
      apply (h.anchorDay_agree hab d).bind_eq
      intro s s' hs
      rw [h.nearestWorkday_eq hs, h.day hab]

/-- One condition is decided alike on every field. -/
theorem holds_eq (h : DateSimulation A B R) {a : α} {b : β} (hab : R a b) (f : Field) (v : Int32)
    (c : Condition) : c.holds A a f v = c.holds B b f v := by
  cases c with
  | any | number | range | step => rfl
  | lastDay =>
      rw [Condition.holds, Condition.holds]
      by_cases hf : f = .day
      · rw [if_pos hf, if_pos hf]
        apply (h.endOfMonth hab).bind_eq
        intro last last' hlast
        rw [h.day hlast]
      · rw [if_neg hf, if_neg hf]
  | nearestWorkday anchor =>
      rw [Condition.holds, Condition.holds, h.isNearestWorkday_eq hab]
  | lastWeekday w =>
      rw [Condition.holds, Condition.holds, h.lastWeekday_eq hab, h.day hab]
  | nthWeekday w nth =>
      rw [Condition.holds, Condition.holds, h.nthWeekday_eq hab, h.day hab]

/-- A field with one value has the same values to test. -/
theorem candidates_eq (h : DateSimulation A B R) {a : α} {b : β} (hab : R a b) {f : Field}
    (hf : A.field a f = B.field b f) : A.candidates a f = B.candidates b f := by
  rw [Calendar.candidates, Calendar.candidates, h.weekday hab, hf]

/-- **Conditions cannot tell related moments apart**: a list of conditions is decided alike on
every field with one value. -/
theorem anyHolds_eq (h : DateSimulation A B R) {a : α} {b : β} (hab : R a b) {f : Field}
    (hf : A.field a f = B.field b f) (conditions : List Condition) :
    Condition.anyHolds A a f conditions = Condition.anyHolds B b f conditions :=
  anyHolds_congr (h.candidates_eq hab hf) (h.holds_eq hab f) conditions

/-- Moments that agree on all fields get the same verdict. -/
theorem evaluate_eq (h : DateSimulation A B R) {a : α} {b : β} (hab : R a b)
    (hf : ∀ f, A.field a f = B.field b f) (s : Schedule) : s.evaluate A a = s.evaluate B b :=
  Schedule.evaluate_congr fun f => h.anyHolds_eq hab (hf f) (s.conditions f)

end DateSimulation

end Recurrence
