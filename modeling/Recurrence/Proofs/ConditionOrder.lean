/-
# The order of the conditions

A list of conditions on a field is a disjunction over pairs of a candidate value and a condition.
It is tested pair by pair and ends early, at a pair that holds or at a fault.  This module says how
far the order of the pairs can be seen from outside.

The key fact is `Condition.anyHolds_no_iff`: the answer is no exactly if every pair says no, which
speaks of no order.  So reordering or repeating conditions can hide a yes behind a fault, but it
never turns a yes into a no (`Condition.anyHolds_as_disjunction`).
-/
import Recurrence.Calendar.Gregorian
import Recurrence.Proofs.Decision

namespace Recurrence

variable {τ : Type}

namespace Condition

variable {C : Calendar τ} {t : τ} {f : Field} {a b l : List Condition}

/-! ## Pairs -/

/-- The pairs that a list of conditions puts to a test, candidate by candidate. -/
def pairs (C : Calendar τ) (t : τ) (f : Field) (l : List Condition) : List (Int32 × Condition) :=
  (C.candidates t f).flatMap fun v => l.map fun c => (v, c)

/-- Whether the condition of a pair holds for its candidate value. -/
def pairHolds (C : Calendar τ) (t : τ) (f : Field) (q : Int32 × Condition) : Except Fault Bool :=
  q.2.holds C t f q.1

/-- No pair fails. -/
def Decided (C : Calendar τ) (t : τ) (f : Field) (l : List Condition) : Prop :=
  ∀ q ∈ pairs C t f l, ∃ x, pairHolds C t f q = .ok x

theorem mem_pairs {q : Int32 × Condition} :
    q ∈ pairs C t f l ↔ q.1 ∈ C.candidates t f ∧ q.2 ∈ l := by
  rw [pairs, List.mem_flatMap]
  constructor
  · rintro ⟨v, hv, hq⟩
    obtain ⟨c, hc, rfl⟩ := List.mem_map.mp hq
    exact ⟨hv, hc⟩
  · rintro ⟨hv, hc⟩
    exact ⟨q.1, hv, List.mem_map.mpr ⟨q.2, hc, rfl⟩⟩

/-- Without the condition `any`, a list is tested pair by pair. -/
theorem anyHolds_eq_anyM_pairs (h : any ∉ l) :
    anyHolds C t f l = (pairs C t f l).anyM (pairHolds C t f) := by
  rw [anyHolds, if_neg h, pairs, anyM_flatMap]
  simp only [anyM_map]
  rfl

/-! ## The answer no -/

/-- The condition `any` holds in some pair, so a list in which every pair says no does without. -/
theorem not_any_mem_of_no (h : ∀ q ∈ pairs C t f l, pairHolds C t f q = .ok false) :
    any ∉ l := by
  intro hany
  obtain ⟨v, hv⟩ := List.exists_mem_of_ne_nil _ (C.candidates_ne_nil t f)
  cases h (v, any) (mem_pairs.mpr ⟨hv, hany⟩)

/-- **A list says no exactly if every pair does.** -/
theorem anyHolds_no_iff :
    anyHolds C t f l = .ok false ↔ ∀ q ∈ pairs C t f l, pairHolds C t f q = .ok false := by
  by_cases hany : any ∈ l
  · rw [anyHolds_of_mem C t f hany]
    exact iff_of_false nofun fun h => not_any_mem_of_no h hany
  · rw [anyHolds_eq_anyM_pairs hany, anyM_no_iff]

/-- Lists with the same conditions say no alike. -/
theorem anyHolds_no_congr (h : ∀ c, c ∈ a ↔ c ∈ b) :
    anyHolds C t f a = .ok false ↔ anyHolds C t f b = .ok false := by
  simp only [anyHolds_no_iff, mem_pairs, h]

/-- A decided list has an answer. -/
theorem Decided.exists_answer (h : Decided C t f l) : ∃ x, anyHolds C t f l = .ok x := by
  by_cases hany : any ∈ l
  · exact ⟨true, anyHolds_of_mem C t f hany⟩
  · rw [anyHolds_eq_anyM_pairs hany]
    exact anyM_ok h

/-- Part of a decided list is decided. -/
theorem Decided.mono (h : Decided C t f b) (hab : ∀ c ∈ a, c ∈ b) : Decided C t f a := by
  intro q hq
  obtain ⟨hv, hc⟩ := mem_pairs.mp hq
  exact h q (mem_pairs.mpr ⟨hv, hab _ hc⟩)

/-! ## Disjunctions -/

/-- Answers that say no alike are the same. -/
theorem answer_congr {r r' : Except Fault Bool} (hr : ∃ x, r = .ok x) (hr' : ∃ y, r' = .ok y)
    (h : r = .ok false ↔ r' = .ok false) : r = r' := by
  obtain ⟨x, rfl⟩ := hr
  obtain ⟨y, rfl⟩ := hr'
  rw [Except.ok.injEq, Except.ok.injEq, ← Bool.not_eq_true, ← Bool.not_eq_true,
    Decidable.not_iff_not] at h
  rw [Bool.eq_iff_iff.mpr h]

/-- Lists with the same conditions have the same answer, if no pair fails. -/
theorem Decided.anyHolds_congr (ha : Decided C t f a) (h : ∀ c, c ∈ a ↔ c ∈ b) :
    anyHolds C t f a = anyHolds C t f b :=
  answer_congr ha.exists_answer (ha.mono fun c hc => (h c).mpr hc).exists_answer
    (anyHolds_no_congr h)

/-- Two lists together say no exactly if both do. -/
theorem anyHolds_append_no_iff :
    anyHolds C t f (a ++ b) = .ok false ↔
      anyHolds C t f a = .ok false ∧ anyHolds C t f b = .ok false := by
  simp only [anyHolds_no_iff, mem_pairs, List.mem_append]
  constructor
  · intro h
    exact ⟨fun q hq => h q ⟨hq.1, Or.inl hq.2⟩, fun q hq => h q ⟨hq.1, Or.inr hq.2⟩⟩
  · rintro ⟨ha, hb⟩ q ⟨hv, hc | hc⟩
    · exact ha q ⟨hv, hc⟩
    · exact hb q ⟨hv, hc⟩

/-- Two lists together have the disjunction of their answers, if no pair fails. -/
theorem Decided.anyHolds_append (h : Decided C t f (a ++ b)) :
    ∃ x y, anyHolds C t f a = .ok x ∧ anyHolds C t f b = .ok y ∧
      anyHolds C t f (a ++ b) = .ok (x || y) := by
  obtain ⟨x, hx⟩ := (h.mono fun c hc => List.mem_append_left b hc).exists_answer
  obtain ⟨y, hy⟩ := (h.mono fun c hc => List.mem_append_right a hc).exists_answer
  refine ⟨x, y, hx, hy, answer_congr h.exists_answer ⟨_, rfl⟩ ?_⟩
  rw [anyHolds_append_no_iff, hx, hy]
  cases x <;> cases y <;> simp

/-- **A list of conditions is a disjunction that ends early.**  The condition `any` is enough
wherever it stands.  Without it the first pair that does not say no decides.  Lists with the same
conditions never contradict each other, and where no pair fails they agree, and joining lists
joins their answers. -/
theorem anyHolds_as_disjunction (C : Calendar τ) (t : τ) (f : Field) :
    (∀ l, any ∈ l → anyHolds C t f l = .ok true) ∧
    (∀ l, any ∉ l →
      (anyHolds C t f l = .ok false ↔ ∀ q ∈ pairs C t f l, pairHolds C t f q = .ok false) ∧
      ∀ before q after, pairs C t f l = before ++ q :: after →
        (∀ p ∈ before, pairHolds C t f p = .ok false) → pairHolds C t f q ≠ .ok false →
        anyHolds C t f l = pairHolds C t f q) ∧
    (∀ a b, (∀ c, c ∈ a ↔ c ∈ b) →
      (anyHolds C t f a = .ok false ↔ anyHolds C t f b = .ok false) ∧
      ¬ (anyHolds C t f a = .ok true ∧ anyHolds C t f b = .ok false) ∧
      (Decided C t f a → anyHolds C t f a = anyHolds C t f b)) ∧
    ∀ a b, Decided C t f (a ++ b) →
      ∃ x y, anyHolds C t f a = .ok x ∧ anyHolds C t f b = .ok y ∧
        anyHolds C t f (a ++ b) = .ok (x || y) := by
  refine ⟨fun l => anyHolds_of_mem C t f, ?_, ?_, fun a b h => h.anyHolds_append⟩
  · intro l hany
    refine ⟨anyHolds_no_iff, ?_⟩
    intro before q after hl hno hq
    rw [anyHolds_eq_anyM_pairs hany, hl]
    exact anyM_of_first hno hq
  · intro a b h
    refine ⟨anyHolds_no_congr h, ?_, fun ha => ha.anyHolds_congr h⟩
    rintro ⟨hyes, hno⟩
    cases hyes.symm.trans ((anyHolds_no_congr h).mpr hno)

/-- The last Sunday of the calendar lies in a month without an end.  Asked first, the search for the
last Monday hides that Sunday may be written 0, but it cannot deny it. -/
theorem anyHolds_as_disjunction_last_sunday :
    let x : DateTime := ⟨⟨262142, 12, 30, by decide, by decide, by decide⟩,
      ⟨0, 0, by decide, by decide⟩⟩
    anyHolds gregorian x .weekday [.number 0, .lastWeekday 1] = .ok true ∧
      anyHolds gregorian x .weekday [.lastWeekday 1, .number 0] = .error .invalidDate ∧
      anyHolds gregorian x .weekday [.lastWeekday 1, .number 0] ≠ .ok false ∧
      anyHolds gregorian x .weekday ([.number 3] ++ [.number 7]) = .ok true := by
  intro x
  obtain ⟨-, hfirst, hsame, happend⟩ := anyHolds_as_disjunction gregorian x .weekday
  have hyes : anyHolds gregorian x .weekday [.number 0, .lastWeekday 1] = .ok true :=
    (hfirst _ (by decide)).2 [] (0, .number 0) _ rfl nofun nofun
  refine ⟨hyes, ?_, ?_, ?_⟩
  · exact (hfirst _ (by decide)).2 [] (0, .lastWeekday 1) _ rfl nofun nofun
  · intro hno
    refine (hsame [.number 0, .lastWeekday 1] [.lastWeekday 1, .number 0] ?_).2.1 ⟨hyes, hno⟩
    intro c
    simp only [List.mem_cons, List.not_mem_nil, or_false]
    exact or_comm
  · have hdecided : Decided gregorian x .weekday ([.number 3] ++ [.number 7]) := by
      rintro ⟨v, c⟩ hq
      have hc : c = .number 3 ∨ c = .number 7 := by simpa using (mem_pairs.mp hq).2
      rcases hc with rfl | rfl <;> exact ⟨_, rfl⟩
    obtain ⟨p, q, -, hq, hpq⟩ := happend [.number 3] [.number 7] hdecided
    have hseven : anyHolds gregorian x .weekday [.number 7] = .ok true := rfl
    rw [hpq, Except.ok.inj (hq.symm.trans hseven), Bool.or_true]

end Condition

end Recurrence
