/-
# What an answer says

A test of a moment asks smaller questions in a fixed order and ends early: at the first condition
that holds, at the first field that refuses, at the first fault.  This module takes the order out
again.  An outcome is right about a proposition if its answer, where it has one, says whether the
proposition holds (`Answers`).  Right outcomes for the single conditions make

* `Answers.anyHolds` : the test of a list of conditions right about "some condition holds for some
  candidate value";
* `Answers.evaluate` : the verdict right about "every field is met".

`anyHolds_ok` and `evaluate_ok` say that there is an answer if every smaller question has one.
Where the order does show, `anyM_of_first` and `Schedule.firstMismatch_cases` say how: the first
question that is not answered the usual way decides.

Outcomes on two calendars, or at two moments, need not be right about one proposition to be
compared: `Compatible` ones do not contradict each other where both are answers, and
`Compatible.evaluate` carries that from the fields to the verdicts.

Conversely nothing is lost on the way up: a single condition can be read off a list
(`anyHolds_singleton`), and a list off a verdict (`Schedule.result_only`).
-/
import Recurrence.Schedule.Verdict

namespace Recurrence

variable {α β τ : Type} {p q : Prop}

/-- The outcome is right about `p`: its answer, if it has one, says whether `p` holds. -/
def Answers (r : Except Fault Bool) (p : Prop) : Prop := ∀ b, r = .ok b → (b = true ↔ p)

namespace Answers

/-- An answer is right about what it says. -/
theorem ok {b : Bool} (h : b = true ↔ p) : Answers (.ok b) p := by
  intro b' hb
  rwa [← Except.ok.inj hb]

/-- A fault says nothing that could be wrong. -/
theorem error (e : Fault) (p : Prop) : Answers (.error e) p := by
  intro b hb
  cases hb

theorem congr {r : Except Fault Bool} (h : Answers r p) (hpq : p ↔ q) : Answers r q :=
  fun b hb => (h b hb).trans hpq

/-- Outcomes that are right about one proposition do not contradict each other. -/
theorem not_contradict {r r' : Except Fault Bool} (h : Answers r p) (h' : Answers r' p) :
    ¬ (r = .ok true ∧ r' = .ok false) := by
  rintro ⟨hyes, hno⟩
  exact Bool.false_ne_true ((h' false hno).mpr ((h true hyes).mp rfl))

end Answers

/-- The outcome decides `p`: it is an answer, and says whether `p` holds. -/
def Decides (r : Except Fault Bool) (p : Prop) : Prop := (∃ b, r = .ok b) ∧ Answers r p

namespace Decides

variable {r r' : Except Fault Bool}

theorem ok [Decidable p] : Decides (.ok p) p := ⟨⟨p, rfl⟩, Answers.ok decide_eq_true_iff⟩

theorem congr (h : Decides r p) (hpq : p ↔ q) : Decides r q := ⟨h.1, h.2.congr hpq⟩

/-- A decided proposition holds exactly if the answer is yes. -/
theorem eq_true_iff (h : Decides r p) : r = .ok true ↔ p := by
  obtain ⟨⟨b, rfl⟩, hb⟩ := h
  rw [Except.ok.injEq, hb b rfl]

/-- A proposition is decided in one way. -/
theorem unique (h : Decides r p) (h' : Decides r' p) : r = r' := by
  obtain ⟨⟨b, rfl⟩, hb⟩ := h
  obtain ⟨⟨b', rfl⟩, hb'⟩ := h'
  rw [Bool.eq_iff_iff.mpr ((hb b rfl).trans (hb' b' rfl).symm)]

end Decides

/-- Two outcomes do not contradict each other: they are the same if both are answers. -/
def Compatible (r r' : Except Fault α) : Prop := ∀ a b, r = .ok a → r' = .ok b → a = b

namespace Compatible

variable {r r' : Except Fault α}

theorem refl (r : Except Fault α) : Compatible r r :=
  fun _ _ ha hb => Except.ok.inj (ha.symm.trans hb)

theorem symm (h : Compatible r r') : Compatible r' r := fun a b ha hb => (h b a hb ha).symm

theorem error (e : Fault) (r : Except Fault α) : Compatible (.error e) r := nofun

/-- Going on from one answer to outcomes that do not contradict each other. -/
theorem bind (h : Compatible r r') {k l : α → Except Fault β}
    (hkl : ∀ a, Compatible (k a) (l a)) : Compatible (r >>= k) (r' >>= l) := by
  rcases r with e | a
  · exact error e _
  · rcases r' with e | b
    · exact (error e _).symm
    · rw [h a b rfl rfl]
      exact hkl b

end Compatible

/-! ## Questions in a row -/

/-- Either all of a list have a property, or there is a first one that does not. -/
theorem all_or_first (p : α → Prop) (l : List α) :
    (∀ a ∈ l, p a) ∨ ∃ before a after, l = before ++ a :: after ∧ (∀ x ∈ before, p x) ∧ ¬ p a := by
  induction l with
  | nil => exact Or.inl nofun
  | cons a l ih =>
      by_cases ha : p a
      · rcases ih with hall | ⟨before, b, after, rfl, hbefore, hb⟩
        · exact Or.inl (List.forall_mem_cons.mpr ⟨ha, hall⟩)
        · exact Or.inr ⟨a :: before, b, after, rfl, List.forall_mem_cons.mpr ⟨ha, hbefore⟩, hb⟩
      · exact Or.inr ⟨[], a, l, rfl, nofun, ha⟩

/-- A row of questions that ends at the first yes is right about "one of them". -/
theorem Answers.anyM {ask : α → Except Fault Bool} {p : α → Prop} {l : List α}
    (h : ∀ a ∈ l, Answers (ask a) (p a)) : Answers (l.anyM ask) (∃ a ∈ l, p a) := by
  induction l with
  | nil => exact Answers.ok (by simp)
  | cons a l ih =>
      have ha := h a List.mem_cons_self
      have hl := ih fun x hx => h x (List.mem_cons_of_mem a hx)
      rw [List.anyM_cons]
      rcases hr : ask a with e | b
      · exact Answers.error e _
      · -- a yes ends the row, and after a no the rest decides
        cases b with
        | true =>
            have hpa : p a := (ha true hr).mp rfl
            exact Answers.ok (iff_of_true rfl ⟨a, List.mem_cons_self, hpa⟩)
        | false =>
            have hpa : ¬ p a := fun hp => Bool.false_ne_true ((ha false hr).mpr hp)
            refine hl.congr ⟨?_, ?_⟩
            · rintro ⟨x, hx, hp⟩
              exact ⟨x, List.mem_cons_of_mem a hx, hp⟩
            · rintro ⟨x, hx, hp⟩
              rcases List.mem_cons.mp hx with rfl | hx
              · exact absurd hp hpa
              · exact ⟨x, hx, hp⟩

/-- Rows do not contradict each other if no question contradicts its counterpart. -/
theorem Compatible.anyM {ask ask' : α → Except Fault Bool} {l : List α}
    (h : ∀ a, Compatible (ask a) (ask' a)) : Compatible (l.anyM ask) (l.anyM ask') := by
  induction l with
  | nil => exact refl _
  | cons a l ih =>
      rw [List.anyM_cons, List.anyM_cons]
      apply (h a).bind
      rintro (_ | _)
      · exact ih
      · exact refl _

/-- A row of questions that are all answered is answered. -/
theorem anyM_ok {ask : α → Except Fault Bool} {l : List α} (h : ∀ a ∈ l, ∃ b, ask a = .ok b) :
    ∃ b, l.anyM ask = .ok b := by
  induction l with
  | nil => exact ⟨false, rfl⟩
  | cons a l ih =>
      obtain ⟨b, hb⟩ := h a List.mem_cons_self
      rw [List.anyM_cons, hb]
      cases b with
      | true => exact ⟨true, rfl⟩
      | false => exact ih fun x hx => h x (List.mem_cons_of_mem a hx)

/-- A row goes on only as long as the answer is no. -/
theorem anyM_append (ask : α → Except Fault Bool) (l l' : List α) :
    (l ++ l').anyM ask = (do if ← l.anyM ask then return true else l'.anyM ask) := by
  induction l with
  | nil => rfl
  | cons a l ih =>
      rw [List.cons_append, List.anyM_cons, List.anyM_cons]
      rcases ask a with e | b
      · rfl
      · cases b with
        | true => rfl
        | false => exact ih

theorem anyM_map (ask : β → Except Fault Bool) (g : α → β) (l : List α) :
    (l.map g).anyM ask = l.anyM fun a => ask (g a) := by
  induction l with
  | nil => rfl
  | cons a l ih => rw [List.map_cons, List.anyM_cons, List.anyM_cons, ih]

/-- Rows in a row are one long row. -/
theorem anyM_flatMap (ask : β → Except Fault Bool) (row : α → List β) (l : List α) :
    (l.flatMap row).anyM ask = l.anyM fun a => (row a).anyM ask := by
  induction l with
  | nil => rfl
  | cons a l ih => rw [List.flatMap_cons, anyM_append, ih, List.anyM_cons]

/-- The answer of a row is no exactly if every question is answered no. -/
theorem anyM_no_iff {ask : α → Except Fault Bool} {l : List α} :
    l.anyM ask = .ok false ↔ ∀ a ∈ l, ask a = .ok false := by
  induction l with
  | nil => exact iff_of_true rfl nofun
  | cons a l ih =>
      rw [List.anyM_cons, List.forall_mem_cons, ← ih]
      rcases ask a with e | b
      · exact iff_of_false nofun nofun
      · cases b with
        | true => exact iff_of_false nofun nofun
        | false => exact ⟨fun h => ⟨rfl, h⟩, fun h => h.2⟩

/-- The first question that is not answered no decides. -/
theorem anyM_of_first {ask : α → Except Fault Bool} {before after : List α} {a : α}
    (h : ∀ x ∈ before, ask x = .ok false) (ha : ask a ≠ .ok false) :
    (before ++ a :: after).anyM ask = ask a := by
  rw [anyM_append, anyM_no_iff.mpr h]
  show (a :: after).anyM ask = ask a
  rw [List.anyM_cons]
  rcases hr : ask a with e | b
  · rfl
  · cases b with
    | true => rfl
    | false => exact absurd hr ha

/-- Faults of a row are faults of its questions. -/
theorem exists_of_anyM_eq_error {ask : α → Except Fault Bool} {l : List α} {e : Fault}
    (h : l.anyM ask = .error e) : ∃ a ∈ l, ask a = .error e := by
  rcases all_or_first (fun a => ask a = .ok false) l with hall | ⟨before, a, after, rfl, hno, ha⟩
  · cases (anyM_no_iff.mpr hall).symm.trans h
  · rw [anyM_of_first hno ha] at h
    exact ⟨a, List.mem_append_right before List.mem_cons_self, h⟩

theorem anyM_singleton (ask : α → Except Fault Bool) (a : α) : [a].anyM ask = ask a := by
  rw [List.anyM_cons]
  rcases ask a with e | b
  · rfl
  · cases b <;> rfl

/-- Asking one question again changes nothing. -/
theorem anyM_const {r : Except Fault Bool} {l : List α} (hl : l ≠ []) :
    l.anyM (fun _ => r) = r := by
  induction l with
  | nil => exact absurd rfl hl
  | cons a l ih =>
      rw [List.anyM_cons]
      rcases r with e | b
      · rfl
      · cases b with
        | true => rfl
        | false =>
            -- the last no of the row stands
            by_cases hnil : l = []
            · rw [hnil]
              rfl
            · exact ih hnil

/-! ## Lists of conditions -/

section Conditions

variable {C : Calendar τ} {t : τ} {f : Field} {conditions : List Condition}

/-- Every field has a value to test. -/
theorem Calendar.candidates_ne_nil (C : Calendar τ) (t : τ) (f : Field) :
    C.candidates t f ≠ [] := by
  unfold candidates
  split <;> exact List.cons_ne_nil _ _

/-- **A list of conditions is met if some condition holds for some candidate value**, in whatever
order they are asked. -/
theorem Answers.anyHolds {p : Int32 → Condition → Prop}
    (h : ∀ v c, Answers (c.holds C t f v) (p v c)) :
    Answers (Condition.anyHolds C t f conditions)
      (∃ v ∈ C.candidates t f, ∃ c ∈ conditions, p v c) := by
  by_cases hany : Condition.any ∈ conditions
  · -- the condition `any` holds for the first candidate, so the short way out is right too
    obtain ⟨v, hv⟩ := List.exists_mem_of_ne_nil _ (C.candidates_ne_nil t f)
    have hp : p v .any := (h v .any true rfl).mp rfl
    rw [Condition.anyHolds_of_mem C t f hany]
    exact Answers.ok (iff_of_true rfl ⟨v, hv, .any, hany, hp⟩)
  · rw [Condition.anyHolds, if_neg hany]
    exact Answers.anyM fun v _ => Answers.anyM fun c _ => h v c

/-- A list is decided if its conditions are. -/
theorem anyHolds_ok (h : ∀ v, ∀ c ∈ conditions, ∃ b, c.holds C t f v = .ok b) :
    ∃ b, Condition.anyHolds C t f conditions = .ok b := by
  by_cases hany : Condition.any ∈ conditions
  · exact ⟨true, Condition.anyHolds_of_mem C t f hany⟩
  · rw [Condition.anyHolds, if_neg hany]
    exact anyM_ok fun v _ => anyM_ok (h v)

/-- A condition that does not look at the candidate value decides a list alone. -/
theorem anyHolds_singleton {c : Condition} {r : Except Fault Bool} (hc : c ≠ .any)
    (h : ∀ v, c.holds C t f v = r) : Condition.anyHolds C t f [c] = r := by
  have hany : Condition.any ∉ [c] := fun hmem => hc (List.mem_singleton.mp hmem).symm
  have hask : (fun v => [c].anyM fun c => c.holds C t f v) = fun _ => r := by
    funext v
    rw [anyM_singleton, h v]
  rw [Condition.anyHolds, if_neg hany, hask]
  exact anyM_const (C.candidates_ne_nil t f)

/-- Lists are decided alike where the candidates are the same and the conditions are decided
alike. -/
theorem anyHolds_congr {A : Calendar α} {B : Calendar β} {a : α} {b : β}
    (hv : A.candidates a f = B.candidates b f)
    (hc : ∀ v c, Condition.holds A a f v c = Condition.holds B b f v c)
    (conditions : List Condition) :
    Condition.anyHolds A a f conditions = Condition.anyHolds B b f conditions := by
  have hask : (fun v => conditions.anyM fun c => c.holds A a f v)
      = fun v => conditions.anyM fun c => c.holds B b f v := by
    funext v
    simp only [hc]
  rw [Condition.anyHolds, Condition.anyHolds, hv, hask]

/-- Lists do not contradict each other if no condition does, for the same candidates. -/
theorem Compatible.anyHolds {A : Calendar α} {B : Calendar β} {a : α} {b : β}
    (hv : A.candidates a f = B.candidates b f)
    (hc : ∀ v c, Compatible (Condition.holds A a f v c) (Condition.holds B b f v c))
    (conditions : List Condition) :
    Compatible (Condition.anyHolds A a f conditions) (Condition.anyHolds B b f conditions) := by
  rw [Condition.anyHolds, Condition.anyHolds, hv]
  split
  · exact refl _
  · exact anyM fun v => anyM (hc v)

end Conditions

/-! ## Fields -/

namespace Schedule

variable {s : Schedule} {C : Calendar τ} {t : τ} {fields : List Field}

/-- No field refuses exactly if every field is met. -/
theorem firstMismatch_eq_none_iff :
    s.firstMismatch C t fields = .ok none ↔ ∀ f ∈ fields, s.meets C t f = .ok true := by
  induction fields with
  | nil => simp [firstMismatch_nil]
  | cons f fields ih =>
      rw [firstMismatch_cons, List.forall_mem_cons]
      rcases s.meets C t f with e | b
      · simp
      · cases b with
        | true => simpa using ih
        | false => simp

/-- Fields that are met are passed. -/
theorem firstMismatch_append {before : List Field} (h : ∀ f ∈ before, s.meets C t f = .ok true) :
    s.firstMismatch C t (before ++ fields) = s.firstMismatch C t fields := by
  induction before with
  | nil => rfl
  | cons f before ih =>
      obtain ⟨hf, hbefore⟩ := List.forall_mem_cons.mp h
      rw [List.cons_append, firstMismatch_cons, hf]
      exact ih hbefore

/-- All that a test of some fields can come to: every field is met, or the first one that is not
refuses or fails. -/
theorem firstMismatch_cases (s : Schedule) (C : Calendar τ) (t : τ) (fields : List Field) :
    (s.firstMismatch C t fields = .ok none ∧ ∀ f ∈ fields, s.meets C t f = .ok true) ∨
      ∃ before g after, fields = before ++ g :: after ∧ (∀ f ∈ before, s.meets C t f = .ok true) ∧
        ((s.meets C t g = .ok false ∧ s.firstMismatch C t fields = .ok (some g)) ∨
          ∃ e, s.meets C t g = .error e ∧ s.firstMismatch C t fields = .error e) := by
  rcases all_or_first (fun f => s.meets C t f = .ok true) fields with
    hall | ⟨before, g, after, rfl, hbefore, hg⟩
  · exact Or.inl ⟨firstMismatch_eq_none_iff.mpr hall, hall⟩
  · refine Or.inr ⟨before, g, after, rfl, hbefore, ?_⟩
    rw [firstMismatch_append hbefore, firstMismatch_cons]
    rcases hm : s.meets C t g with e | b
    · exact Or.inr ⟨e, rfl, rfl⟩
    · cases b with
      | true => exact absurd hm hg
      | false => exact Or.inl ⟨rfl, rfl⟩

/-- A field that refuses is not met. -/
theorem meets_of_firstMismatch {g : Field} (h : s.firstMismatch C t fields = .ok (some g)) :
    s.meets C t g = .ok false := by
  rcases firstMismatch_cases s C t fields with
    ⟨hr, -⟩ | ⟨-, g', -, -, -, ⟨hg', hr⟩ | ⟨e, -, hr⟩⟩ <;> rw [hr] at h
  · cases h
  · rwa [← Option.some.inj (Except.ok.inj h)]
  · cases h

/-- Faults come from fields. -/
theorem exists_of_firstMismatch_eq_error {e : Fault}
    (h : s.firstMismatch C t fields = .error e) : ∃ f ∈ fields, s.meets C t f = .error e := by
  rcases firstMismatch_cases s C t fields with
    ⟨hr, -⟩ | ⟨before, g, after, hf, -, ⟨-, hr⟩ | ⟨e', hg, hr⟩⟩ <;> rw [hr] at h
  · cases h
  · cases h
  · rw [Except.error.inj h] at hg
    exact ⟨g, by simp [hf], hg⟩

/-- Without the boot flag the verdict is told by the first field that is not met. -/
theorem evaluateOn_of_not_reboot (fields : List Field) (hb : s.reboot = false) :
    s.evaluateOn fields C t =
      match s.firstMismatch C t fields with
      | .error fault => ⟨.error fault, []⟩
      | .ok none => ⟨.ok true, []⟩
      | .ok (some f) => ⟨.ok false, [.mismatch f]⟩ :=
  if_neg (by rw [hb]; exact Bool.false_ne_true)

/-- Verdicts are alike where the fields are met alike. -/
theorem evaluate_eq_of_meets_eq {s' : Schedule} {A : Calendar α} {B : Calendar β} {a : α} {b : β}
    (hb : s.reboot = s'.reboot) (h : ∀ f, s.meets A a f = s'.meets B b f) :
    s.evaluate A a = s'.evaluate B b := by
  rw [evaluate, evaluate, evaluateOn, evaluateOn, hb, firstMismatch, firstMismatch, funext h]

/-- A schedule sees no more of a moment than how its fields are met. -/
theorem evaluate_congr {A : Calendar α} {B : Calendar β} {a : α} {b : β}
    (h : ∀ f, s.meets A a f = s.meets B b f) : s.evaluate A a = s.evaluate B b :=
  evaluate_eq_of_meets_eq rfl h

/-- The schedule with conditions on one field only. -/
def only (f : Field) (conditions : List Condition) : Schedule :=
  ofConditions false fun g => if g = f then conditions else [.any]

/-- Such a schedule tests that field and accepts every value of the others. -/
theorem meets_only (f : Field) (conditions : List Condition) (g : Field) :
    (only f conditions).meets C t g
      = if g = f then Condition.anyHolds C t f conditions else .ok true := by
  rw [meets, only, conditions_ofConditions]
  by_cases hg : g = f
  · rw [if_pos hg, if_pos hg, hg]
  · rw [if_neg hg, if_neg hg]
    exact Condition.anyHolds_of_mem C t g List.mem_cons_self

/-- The verdict on one field alone is the outcome of its conditions. -/
theorem result_only (f : Field) (conditions : List Condition) :
    ((only f conditions).evaluate C t).result = Condition.anyHolds C t f conditions := by
  have hb : (only f conditions).reboot = false := rfl
  have hf : (only f conditions).meets C t f = Condition.anyHolds C t f conditions := by
    rw [meets_only, if_pos rfl]
  -- whatever field ends the test, it is `f`
  have hg : ∀ g, (only f conditions).meets C t g ≠ .ok true → g = f := by
    intro g hne
    by_cases h : g = f
    · exact h
    · rw [meets_only, if_neg h] at hne
      exact absurd rfl hne
  rw [evaluate, evaluateOn_of_not_reboot Field.all hb]
  rcases hm : (only f conditions).firstMismatch C t Field.all with e | _ | g
  · obtain ⟨g, -, hge⟩ := exists_of_firstMismatch_eq_error hm
    have hgf := hg g (by rw [hge]; exact nofun)
    rw [hgf] at hge
    rw [← hf, hge]
  · rw [← hf, firstMismatch_eq_none_iff.mp hm f f.mem_all]
  · have hgm := meets_of_firstMismatch hm
    have hgf := hg g (by rw [hgm]; exact nofun)
    rw [hgf] at hgm
    rw [← hf, hgm]

/-- Fields that do not contradict each other end a test in the same place. -/
theorem compatible_firstMismatch {A : Calendar α} {B : Calendar β} {a : α} {b : β}
    (h : ∀ f, Compatible (s.meets A a f) (s.meets B b f)) (fields : List Field) :
    Compatible (s.firstMismatch A a fields) (s.firstMismatch B b fields) := by
  induction fields with
  | nil => exact Compatible.refl _
  | cons f fields ih =>
      rw [firstMismatch_cons, firstMismatch_cons]
      rcases hA : s.meets A a f with e | x
      · exact Compatible.error e _
      · rcases hB : s.meets B b f with e | y
        · exact (Compatible.error e _).symm
        · rw [h f x y hA hB]
          cases y with
          | true => exact ih
          | false => exact Compatible.refl _

end Schedule

/-- Verdicts that both hold an answer are the same if no field contradicts the other. -/
theorem Compatible.evaluate {s : Schedule} {A : Calendar α} {B : Calendar β} {a : α} {b : β}
    (h : ∀ f, Compatible (s.meets A a f) (s.meets B b f)) {x y : Bool}
    (hx : (s.evaluate A a).result = .ok x) (hy : (s.evaluate B b).result = .ok y) :
    s.evaluate A a = s.evaluate B b := by
  cases hb : s.reboot with
  | true =>
      rw [Schedule.evaluate, Schedule.evaluateOn_of_reboot Field.all A a hb] at hx
      cases hx
  | false =>
      rw [Schedule.evaluate, Schedule.evaluateOn_of_not_reboot Field.all hb] at hx hy ⊢
      rw [Schedule.evaluate, Schedule.evaluateOn_of_not_reboot Field.all hb]
      have hfirst := Schedule.compatible_firstMismatch h Field.all
      rcases hA : s.firstMismatch A a Field.all with e | first
      · rw [hA] at hx
        cases hx
      · rcases hB : s.firstMismatch B b Field.all with e | first'
        · rw [hB] at hy
          cases hy
        · rw [hfirst first first' hA hB]

/-- **A moment gets a yes if every field is met.** -/
theorem Answers.evaluate {s : Schedule} {C : Calendar τ} {t : τ} {p : Field → Prop}
    (hb : s.reboot = false) (h : ∀ f, Answers (s.meets C t f) (p f)) :
    Answers (s.evaluate C t).result (∀ f, p f) := by
  rw [Schedule.evaluate, Schedule.evaluateOn_of_not_reboot Field.all hb]
  rcases hm : s.firstMismatch C t Field.all with e | _ | g
  · exact Answers.error e _
  · have hall := Schedule.firstMismatch_eq_none_iff.mp hm
    exact Answers.ok (iff_of_true rfl fun f => (h f true (hall f f.mem_all)).mp rfl)
  · have hg := Schedule.meets_of_firstMismatch hm
    exact Answers.ok (iff_of_false Bool.false_ne_true
      fun hp => Bool.false_ne_true ((h g false hg).mpr (hp g)))

/-- There is an answer if every field is decided. -/
theorem evaluate_ok {s : Schedule} {C : Calendar τ} {t : τ} (hb : s.reboot = false)
    (h : ∀ f, ∃ b, s.meets C t f = .ok b) : ∃ b, (s.evaluate C t).result = .ok b := by
  rw [Schedule.evaluate, Schedule.evaluateOn_of_not_reboot Field.all hb]
  rcases hm : s.firstMismatch C t Field.all with e | _ | g
  · obtain ⟨f, _, hf⟩ := Schedule.exists_of_firstMismatch_eq_error hm
    obtain ⟨b, hb'⟩ := h f
    rw [hf] at hb'
    cases hb'
  · exact ⟨true, rfl⟩
  · exact ⟨false, rfl⟩

end Recurrence
