/-
# The order of the fields

A verdict is the conjunction of the seven fields' answers, taken in their order.  The first answer
that is not a yes decides: nothing after it is looked at, and only a refusal is logged
(`Verdict.Conjoins`).

`Schedule.firstMismatch_cases` says all that a test of some fields can come to, and
`Schedule.verdict_in_order` reads the verdict off it.  The order matters less than it seems: a
test of the fields in another order says yes to the same moments, and the same in all cases if no
field fails.
-/
import Recurrence.Calendar.Gregorian
import Recurrence.Proofs.Decision

namespace Recurrence

variable {τ : Type}

/-! ## Before a field -/

namespace Field

theorem not_lt_of_lt {f g : Field} (h : compare f g = .lt) : compare g f ≠ .lt := by
  revert h
  cases f <;> cases g <;> decide

/-- The fields listed before `g` are the smaller ones. -/
theorem mem_before_iff {before after : List Field} {g : Field}
    (h : all = before ++ g :: after) (f : Field) : f ∈ before ↔ compare f g = .lt := by
  have hp := pairwise_all
  rw [h, List.pairwise_append, List.pairwise_cons] at hp
  obtain ⟨-, ⟨hafter, -⟩, hbefore⟩ := hp
  constructor
  · intro hf
    exact hbefore f hf g List.mem_cons_self
  · intro hlt
    have hmem : f ∈ before ++ g :: after := h ▸ f.mem_all
    rcases List.mem_append.mp hmem with hf | hf
    · exact hf
    · rcases List.mem_cons.mp hf with rfl | hf
      · exact absurd hlt (not_lt_of_lt hlt)
      · exact absurd (hafter f hf) (not_lt_of_lt hlt)

end Field

/-! ## Conjunctions -/

namespace Schedule

variable {s : Schedule} {C : Calendar τ} {t : τ} {fields : List Field}

/-- Every field before `k` is met. -/
def MetBefore (s : Schedule) (C : Calendar τ) (t : τ) (k : Field) : Prop :=
  ∀ f, compare f k = .lt → s.meets C t f = .ok true

/-- Only one field can be the first that does not say yes. -/
theorem MetBefore.unique {g k : Field} (hg : s.MetBefore C t g) (hk : s.MetBefore C t k)
    (hgr : s.meets C t g ≠ .ok true) (hkr : s.meets C t k ≠ .ok true) : g = k := by
  have hlt : ¬ compare g k = .lt := fun h => hgr (hk g h)
  have hgt : ¬ compare k g = .lt := fun h => hkr (hg k h)
  revert hlt hgt
  cases g <;> cases k <;> decide

/-- What the first field that does not say yes answers is what some such field answers. -/
theorem MetBefore.answer_iff {g : Field} {r : Except Fault Bool} (hg : s.MetBefore C t g)
    (hgr : s.meets C t g ≠ .ok true) (hr : r ≠ .ok true) :
    s.meets C t g = r ↔ ∃ k, s.MetBefore C t k ∧ s.meets C t k = r := by
  constructor
  · intro h
    exact ⟨g, hg, h⟩
  · rintro ⟨k, hk, hkr⟩
    rwa [hg.unique hk hgr (by rwa [hkr])]

end Schedule

/-- The verdict is the conjunction of a schedule's answers on the fields: a yes if all say yes, and
otherwise the answer of the first field that does not.  Only a no is logged, with its field. -/
structure Verdict.Conjoins (v : Verdict) (s : Schedule) (C : Calendar τ) (t : τ) : Prop where
  yes_iff : v.result = .ok true ↔ ∀ f, s.meets C t f = .ok true
  no_iff : v.result = .ok false ↔ ∃ k, s.MetBefore C t k ∧ s.meets C t k = .ok false
  fault_iff : ∀ e, v.result = .error e ↔ ∃ k, s.MetBefore C t k ∧ s.meets C t k = .error e
  events_of_no : ∀ k, s.MetBefore C t k → s.meets C t k = .ok false → v.events = [.mismatch k]
  events_else : v.result ≠ .ok false → v.events = []

namespace Schedule

variable {s : Schedule} {C : Calendar τ} {t : τ} {fields : List Field}

/-- All that a verdict can be. -/
theorem evaluateOn_cases (fields : List Field) (C : Calendar τ) (t : τ) (hb : s.reboot = false) :
    (s.evaluateOn fields C t = ⟨.ok true, []⟩ ∧ ∀ f ∈ fields, s.meets C t f = .ok true) ∨
      ∃ before g after, fields = before ++ g :: after ∧ (∀ f ∈ before, s.meets C t f = .ok true) ∧
        ((s.meets C t g = .ok false ∧ s.evaluateOn fields C t = ⟨.ok false, [.mismatch g]⟩) ∨
          ∃ e, s.meets C t g = .error e ∧ s.evaluateOn fields C t = ⟨.error e, []⟩) := by
  rw [evaluateOn_of_not_reboot fields hb]
  rcases firstMismatch_cases s C t fields with
    ⟨hr, hall⟩ | ⟨before, g, after, hf, hbefore, ⟨hg, hr⟩ | ⟨e, hg, hr⟩⟩ <;> rw [hr]
  · exact Or.inl ⟨rfl, hall⟩
  · exact Or.inr ⟨before, g, after, hf, hbefore, Or.inl ⟨hg, rfl⟩⟩
  · exact Or.inr ⟨before, g, after, hf, hbefore, Or.inr ⟨e, hg, rfl⟩⟩

theorem conjoins_evaluate (C : Calendar τ) (t : τ) (hb : s.reboot = false) :
    (s.evaluate C t).Conjoins s C t := by
  have hno : (.ok false : Except Fault Bool) ≠ .ok true :=
    fun h => Bool.false_ne_true (Except.ok.inj h)
  have hfault : ∀ e, (.error e : Except Fault Bool) ≠ .ok true := by
    intro e h
    cases h
  rcases evaluateOn_cases Field.all C t hb with
    ⟨hv, hall⟩ | ⟨before, g, after, hf, hbefore, hcase⟩
  · -- every field says yes
    rw [evaluate, hv]
    have hyes : ∀ f, s.meets C t f = .ok true := fun f => hall f f.mem_all
    have hother : ∀ r, r ≠ .ok true → ¬ ∃ k, s.MetBefore C t k ∧ s.meets C t k = r := by
      rintro r hr ⟨k, -, hk⟩
      exact hr (hk.symm.trans (hyes k))
    refine ⟨iff_of_true rfl hyes, iff_of_false hno.symm (hother _ hno),
      fun e => iff_of_false (hfault e).symm (hother _ (hfault e)), ?_, fun _ => rfl⟩
    intro k hk hkr
    exact absurd ⟨k, hk, hkr⟩ (hother _ hno)
  · -- the field `g` is the first that does not
    have hg : s.MetBefore C t g := fun f hlt => hbefore f ((Field.mem_before_iff hf f).mpr hlt)
    rcases hcase with ⟨hr, hv⟩ | ⟨e, hr, hv⟩
    · have hne : s.meets C t g ≠ .ok true := by rwa [hr]
      rw [evaluate, hv, ← hr]
      refine ⟨iff_of_false hne fun h => hne (h g), hg.answer_iff hne hno,
        fun e => hg.answer_iff hne (hfault e), ?_, fun h => absurd hr h⟩
      intro k hk hkr
      rw [hg.unique hk hne (by rwa [hkr])]
    · have hne : s.meets C t g ≠ .ok true := by
        rw [hr]
        exact hfault e
      rw [evaluate, hv, ← hr]
      refine ⟨iff_of_false hne fun h => hne (h g), hg.answer_iff hne hno,
        fun e => hg.answer_iff hne (hfault e), ?_, fun _ => rfl⟩
      intro k hk hkr
      rw [hg.unique hk hne (by rwa [hkr]), hkr] at hr
      cases hr

/-! ## Other orders -/

/-- A test of all fields says yes, in whatever order, exactly if all fields say yes. -/
theorem evaluateOn_yes_iff (C : Calendar τ) (t : τ) (hb : s.reboot = false)
    (hf : fields.Perm Field.all) :
    (s.evaluateOn fields C t).result = .ok true ↔ ∀ f, s.meets C t f = .ok true := by
  rcases evaluateOn_cases fields C t hb with
    ⟨hv, hall⟩ | ⟨before, g, after, -, -, ⟨hg, hv⟩ | ⟨e, hg, hv⟩⟩ <;> rw [hv]
  · exact iff_of_true rfl fun f => hall f (hf.mem_iff.mpr f.mem_all)
  · exact iff_of_false nofun fun h => by cases (h g).symm.trans hg
  · exact iff_of_false nofun fun h => by cases (h g).symm.trans hg

/-- Without faults there is an answer in every order. -/
theorem exists_evaluateOn_ok (fields : List Field) (hb : s.reboot = false)
    (h : ∀ f, ∃ b, s.meets C t f = .ok b) : ∃ b, (s.evaluateOn fields C t).result = .ok b := by
  rcases evaluateOn_cases fields C t hb with
    ⟨hv, -⟩ | ⟨before, g, after, -, -, ⟨-, hv⟩ | ⟨e, hg, -⟩⟩
  · exact ⟨true, by rw [hv]⟩
  · exact ⟨false, by rw [hv]⟩
  · obtain ⟨b, hb⟩ := h g
    cases hb.symm.trans hg

/-- **A verdict is the conjunction of the fields in their order.**  A schedule for boot time is
refused unseen, and any other gets the answer of the first field that does not say yes.  In all
other orders the same moments get a yes, and every moment the same answer if no field fails. -/
theorem verdict_in_order (s : Schedule) (C : Calendar τ) (t : τ) :
    (s.reboot = true → s.evaluate C t = ⟨.error (.unsupported "@reboot"), [.bootRejected]⟩) ∧
    (s.reboot = false → (s.evaluate C t).Conjoins s C t) ∧
    ∀ fields fields' : List Field, fields.Perm Field.all → fields'.Perm Field.all →
      ((s.evaluateOn fields C t).result = .ok true ↔
        (s.evaluateOn fields' C t).result = .ok true) ∧
      ((∀ f, ∃ b, s.meets C t f = .ok b) →
        (s.evaluateOn fields C t).result = (s.evaluateOn fields' C t).result) := by
  refine ⟨evaluateOn_of_reboot Field.all C t, conjoins_evaluate C t, ?_⟩
  intro fields fields' hf hf'
  cases hb : s.reboot with
  | true =>
      rw [evaluateOn_of_reboot fields C t hb, evaluateOn_of_reboot fields' C t hb]
      exact ⟨Iff.rfl, fun _ => rfl⟩
  | false =>
      have hyes : (s.evaluateOn fields C t).result = .ok true ↔
          (s.evaluateOn fields' C t).result = .ok true :=
        (evaluateOn_yes_iff C t hb hf).trans (evaluateOn_yes_iff C t hb hf').symm
      refine ⟨hyes, fun hok => ?_⟩
      obtain ⟨b, hr⟩ := exists_evaluateOn_ok fields hb hok
      obtain ⟨b', hr'⟩ := exists_evaluateOn_ok fields' hb hok
      rw [hr, hr', Except.ok.injEq, Except.ok.injEq] at hyes
      rw [hr, hr', Bool.eq_iff_iff.mpr hyes]

/-- On the last date of the calendar the end of the month is not found, and the fault hides that no
weekday has the number 9.  The opposite order cannot say yes either. -/
theorem verdict_in_order_last_date :
    let s : Schedule := { day := [.lastDay], weekday := [.number 9] }
    let x : DateTime := ⟨⟨262142, 12, 31, by decide, by decide, by decide⟩,
      ⟨0, 0, by decide, by decide⟩⟩
    (s.evaluate gregorian x).result = .error .invalidDate ∧
      (s.evaluateOn Field.all.reverse gregorian x).result ≠ .ok true ∧
      (Schedule.atBoot.evaluate gregorian x).events = [.bootRejected] := by
  intro s x
  obtain ⟨-, hconj, horder⟩ := verdict_in_order s gregorian x
  have hfault : (s.evaluate gregorian x).result = .error .invalidDate := by
    refine ((hconj rfl).fault_iff _).mpr ⟨.day, ?_, rfl⟩
    intro f hf
    cases f <;> first | rfl | cases hf
  refine ⟨hfault, ?_, ?_⟩
  · intro hyes
    have hsame := horder Field.all.reverse Field.all (List.reverse_perm _) (List.Perm.refl _)
    cases hfault.symm.trans (hsame.1.mp hyes)
  · rw [(verdict_in_order Schedule.atBoot gregorian x).1 rfl]

end Schedule

end Recurrence
