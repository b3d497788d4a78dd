/-
# Spellings of conditions

Which JSON trees stand for which condition, told without a reader.  A variant without data may be
written in more than one way, so the spellings are given for any way of writing those
(`Condition.Spells`); the reader accepts two (`Json.IsUnit`) and the writer uses one
(`Json.IsBare`).

* `Condition.ofJson?_eq_some_iff` : reading finds the condition that a tree spells;
* `Condition.eq_toJson_iff` : writing gives the one spelling in which variants without data are
  bare names.
-/
import Mathlib.Data.List.Forall2
import Recurrence.Json.Condition

namespace Recurrence

/-! ## Variants without data -/

namespace Json

variable {j p : Json} {name : String}

/-- A variant without data as its bare name. -/
def IsBare (name : String) (j : Json) : Prop := j = .string name

/-- A variant without data as its bare name, or with null for its data. -/
def IsUnit (name : String) (j : Json) : Prop := j = .string name ∨ j = .object [(name, .null)]

/-- The bare name is a spelling of the name. -/
theorem IsBare.isUnit (h : IsBare name j) : IsUnit name j := Or.inl h

/-- A variant is a bare name, or an object with a single member. -/
theorem variant?_eq_some_iff :
    j.variant? = some (name, p) ↔ (j = .string name ∧ p = .null) ∨ j = .object [(name, p)] := by
  cases j with
  | string s => simp [variant?, eq_comm]
  | object members =>
      rcases members with _ | ⟨⟨key, q⟩, _ | ⟨second, rest⟩⟩ <;> simp [variant?]
  | _ => simp [variant?]

theorem isUnit_iff : IsUnit name j ↔ j.variant? = some (name, .null) := by
  rw [variant?_eq_some_iff, IsUnit, and_iff_left rfl]

/-- A variant with data is an object. -/
theorem eq_object_of_variant? (h : j.variant? = some (name, p)) (hp : p ≠ .null) :
    j = .object [(name, p)] := by
  rcases variant?_eq_some_iff.mp h with ⟨-, hnull⟩ | hj
  · exact absurd hnull hp
  · exact hj

end Json

/-! ## Spellings -/

open Json (IsBare IsUnit)

/-- The tree spells the base of a step; `U` says how variants without data are written. -/
inductive StepBase.Spells (U : String → Json → Prop) : Json → StepBase → Prop
  | any {j : Json} (h : U "Any" j) : Spells U j .any
  | range (first last : Int32) :
      Spells U (.object [("Range", .array [.integer first.toInt, .integer last.toInt])])
        (.range first last)

/-- The tree spells an anchor. -/
inductive DayAnchor.Spells (U : String → Json → Prop) : Json → DayAnchor → Prop
  | day (number : Int32) : Spells U (.object [("Day", .integer number.toInt)]) (.day number)
  | lastDay {j : Json} (h : U "LastDayOfMonth" j) : Spells U j .lastDay

/-- The tree spells a condition. -/
inductive Condition.Spells (U : String → Json → Prop) : Json → Condition → Prop
  | any {j : Json} (h : U "Any" j) : Spells U j .any
  | number (n : Int32) : Spells U (.object [("Number", .integer n.toInt)]) (.number n)
  | range (first last : Int32) :
      Spells U (.object [("Range", .array [.integer first.toInt, .integer last.toInt])])
        (.range first last)
  | step {b : Json} {base : StepBase} (h : StepBase.Spells U b base) (divisor : UInt32) :
      Spells U (.object [("Step", .array [b, .integer divisor.toNat])]) (.step base divisor)
  | lastDay {j : Json} (h : U "LastDayOfMonth" j) : Spells U j .lastDay
  | nearestWorkday {a : Json} {anchor : DayAnchor} (h : DayAnchor.Spells U a anchor) :
      Spells U (.object [("NearestWeekdayToDay", a)]) (.nearestWorkday anchor)
  | lastWeekday (weekday : Int32) :
      Spells U (.object [("LastWeekdayOccurrence", .integer weekday.toInt)])
        (.lastWeekday weekday)
  | nthWeekday (weekday nth : Int32) :
      Spells U (.object [("NthWeekdayOccurrence",
        .array [.integer weekday.toInt, .integer nth.toInt])]) (.nthWeekday weekday nth)

/-! ## Reading -/

/-- Reading the base of a step finds what the tree spells. -/
theorem StepBase.ofJson?_eq_some_iff {j : Json} {base : StepBase} :
    ofJson? j = some base ↔ Spells IsUnit j base := by
  constructor
  · intro h
    unfold ofJson? at h
    split at h
    · next hv =>
      rw [← Option.some.inj h]
      exact .any (Json.isUnit_iff.mpr hv)
    · next first last hv =>
      simp only [Option.bind_eq_bind, Option.bind_eq_some_iff, Option.pure_def,
        Option.some.injEq, Json.int32?_eq_some_iff] at h
      obtain ⟨v, rfl, w, rfl, rfl⟩ := h
      rw [Json.eq_object_of_variant? hv nofun]
      exact .range v w
    · cases h
  · intro h
    cases h with
    | any h => simp only [ofJson?, Json.isUnit_iff.mp h]
    | range first last => simp [ofJson?, Json.variant?]

/-- Reading an anchor finds what the tree spells. -/
theorem DayAnchor.ofJson?_eq_some_iff {j : Json} {anchor : DayAnchor} :
    ofJson? j = some anchor ↔ Spells IsUnit j anchor := by
  constructor
  · intro h
    unfold ofJson? at h
    split at h
    · next hv =>
      rw [← Option.some.inj h]
      exact .lastDay (Json.isUnit_iff.mpr hv)
    · next number hv =>
      simp only [Option.bind_eq_bind, Option.bind_eq_some_iff, Option.pure_def,
        Option.some.injEq, Json.int32?_eq_some_iff] at h
      obtain ⟨v, rfl, rfl⟩ := h
      rw [Json.eq_object_of_variant? hv nofun]
      exact .day v
    · cases h
  · intro h
    cases h with
    | day number => simp [ofJson?, Json.variant?]
    | lastDay h => simp only [ofJson?, Json.isUnit_iff.mp h]

theorem DayAnchor.Spells.ne_null {j : Json} {anchor : DayAnchor} (h : Spells IsUnit j anchor) :
    j ≠ .null := by
  rintro rfl
  rcases h with _ | ⟨h | h⟩ <;> cases h

/-- **Reading a condition finds what the tree spells.** -/
theorem Condition.ofJson?_eq_some_iff {j : Json} {c : Condition} :
    ofJson? j = some c ↔ Spells IsUnit j c := by
  constructor
  · intro h
    unfold ofJson? at h
    -- the lines of the reader: two for names alone, six with data, and the refusal
    split at h
    case h_1 hv =>
      rw [← Option.some.inj h]
      exact .any (Json.isUnit_iff.mpr hv)
    case h_5 hv =>
      rw [← Option.some.inj h]
      exact .lastDay (Json.isUnit_iff.mpr hv)
    case h_9 => cases h
    all_goals
      simp only [Option.bind_eq_bind, Option.bind_eq_some_iff, Option.pure_def,
        Option.some.injEq, Json.int32?_eq_some_iff, Json.uint32?_eq_some_iff,
        StepBase.ofJson?_eq_some_iff, DayAnchor.ofJson?_eq_some_iff] at h
    case h_2 hv =>
      obtain ⟨n, rfl, rfl⟩ := h
      rw [Json.eq_object_of_variant? hv nofun]
      exact .number n
    case h_3 hv =>
      obtain ⟨first, rfl, last, rfl, rfl⟩ := h
      rw [Json.eq_object_of_variant? hv nofun]
      exact .range first last
    case h_4 hv =>
      obtain ⟨base, hbase, divisor, rfl, rfl⟩ := h
      rw [Json.eq_object_of_variant? hv nofun]
      exact .step hbase divisor
    case h_6 hv =>
      -- a bare name has null for its data, and null is no anchor
      obtain ⟨anchor, hanchor, rfl⟩ := h
      rw [Json.eq_object_of_variant? hv hanchor.ne_null]
      exact .nearestWorkday hanchor
    case h_7 hv =>
      obtain ⟨weekday, rfl, rfl⟩ := h
      rw [Json.eq_object_of_variant? hv nofun]
      exact .lastWeekday weekday
    case h_8 hv =>
      obtain ⟨weekday, rfl, nth, rfl, rfl⟩ := h
      rw [Json.eq_object_of_variant? hv nofun]
      exact .nthWeekday weekday nth
  · intro h
    cases h with
    | any h => simp only [ofJson?, Json.isUnit_iff.mp h]
    | lastDay h => simp only [ofJson?, Json.isUnit_iff.mp h]
    | step h divisor =>
        simp [ofJson?, Json.variant?, StepBase.ofJson?_eq_some_iff.mpr h]
    | nearestWorkday h =>
        simp [ofJson?, Json.variant?, DayAnchor.ofJson?_eq_some_iff.mpr h]
    | number | range | lastWeekday | nthWeekday => simp [ofJson?, Json.variant?]

/-! ## Writing -/

/-- A base is written with bare names. -/
theorem StepBase.eq_toJson_iff {j : Json} {base : StepBase} :
    j = base.toJson ↔ Spells IsBare j base := by
  constructor
  · rintro rfl
    cases base with
    | any => exact .any rfl
    | range first last => exact .range first last
  · intro h
    cases h with
    | any h => exact h
    | range => rfl

theorem DayAnchor.eq_toJson_iff {j : Json} {anchor : DayAnchor} :
    j = anchor.toJson ↔ Spells IsBare j anchor := by
  constructor
  · rintro rfl
    cases anchor with
    | day number => exact .day number
    | lastDay => exact .lastDay rfl
  · intro h
    cases h with
    | day => rfl
    | lastDay h => exact h

/-- **Writing a condition gives its one spelling** with bare names. -/
theorem Condition.eq_toJson_iff {j : Json} {c : Condition} :
    j = c.toJson ↔ Spells IsBare j c := by
  constructor
  · rintro rfl
    cases c with
    | any => exact .any rfl
    | number n => exact .number n
    | range first last => exact .range first last
    | step base divisor => exact .step (StepBase.eq_toJson_iff.mp rfl) divisor
    | lastDay => exact .lastDay rfl
    | nearestWorkday anchor => exact .nearestWorkday (DayAnchor.eq_toJson_iff.mp rfl)
    | lastWeekday weekday => exact .lastWeekday weekday
    | nthWeekday weekday nth => exact .nthWeekday weekday nth
  · intro h
    cases h with
    | any h => exact h
    | lastDay h => exact h
    | step h divisor => rw [StepBase.eq_toJson_iff.mpr h]; rfl
    | nearestWorkday h => rw [DayAnchor.eq_toJson_iff.mpr h]; rfl
    | number | range | lastWeekday | nthWeekday => rfl

/-! ## Ways of writing -/

section Mono

variable {U V : String → Json → Prop} (hUV : ∀ name j, U name j → V name j)
include hUV

/-- With more spellings of names there are more spellings of bases. -/
theorem StepBase.Spells.mono {j : Json} {base : StepBase} (h : Spells U j base) :
    Spells V j base := by
  cases h with
  | any h => exact .any (hUV _ _ h)
  | range first last => exact .range first last

theorem DayAnchor.Spells.mono {j : Json} {anchor : DayAnchor} (h : Spells U j anchor) :
    Spells V j anchor := by
  cases h with
  | day number => exact .day number
  | lastDay h => exact .lastDay (hUV _ _ h)

theorem Condition.Spells.mono {j : Json} {c : Condition} (h : Spells U j c) : Spells V j c := by
  cases h with
  | any h => exact .any (hUV _ _ h)
  | lastDay h => exact .lastDay (hUV _ _ h)
  | step h divisor => exact .step (h.mono hUV) divisor
  | nearestWorkday h => exact .nearestWorkday (h.mono hUV)
  | number n => exact .number n
  | range first last => exact .range first last
  | lastWeekday weekday => exact .lastWeekday weekday
  | nthWeekday weekday nth => exact .nthWeekday weekday nth

end Mono

/-- A written condition is read back. -/
theorem Condition.ofJson?_toJson (c : Condition) : ofJson? c.toJson = some c :=
  ofJson?_eq_some_iff.mpr ((eq_toJson_iff.mp rfl).mono fun _ _ h => h.isUnit)

/-! ## Lists of conditions -/

namespace Condition

variable {j : Json} {l : List Condition}

/-- Reading a list is reading its members one by one. -/
theorem mapM_eq_some_iff {α β : Type} {read : α → Option β} {xs : List α} {ys : List β} :
    xs.mapM read = some ys ↔ List.Forall₂ (fun x y => read x = some y) xs ys := by
  induction xs generalizing ys with
  | nil => cases ys <;> simp
  | cons x xs ih =>
      cases ys with
      | nil => simp [List.mapM_cons, Option.bind_eq_some_iff]
      | cons y ys => simp [List.mapM_cons, Option.bind_eq_some_iff, ih]

/-- The tree is an array that spells a list of conditions one by one. -/
def SpellsList (U : String → Json → Prop) (j : Json) (l : List Condition) : Prop :=
  ∃ elements, j = .array elements ∧ List.Forall₂ (Spells U) elements l

/-- **A list is read exactly from its spellings.** -/
theorem listOfJson?_eq_some_iff : listOfJson? j = some l ↔ SpellsList IsUnit j l := by
  cases j with
  | array elements => simp [listOfJson?, SpellsList, mapM_eq_some_iff, ofJson?_eq_some_iff]
  | _ => simp [listOfJson?, SpellsList]

/-- A list is written with bare names. -/
theorem eq_listToJson_iff : j = listToJson l ↔ SpellsList IsBare j l := by
  cases j with
  | array elements =>
      have hbare : Spells IsBare = fun e c => e = toJson c := by
        funext e c
        exact propext eq_toJson_iff.symm
      rw [listToJson, Json.array.injEq, ← List.forall₂_eq_eq_eq, List.forall₂_map_right_iff]
      simp [SpellsList, hbare]
  | _ => simp [listToJson, SpellsList]

/-- A written list is read back. -/
theorem listOfJson?_listToJson (l : List Condition) : listOfJson? (listToJson l) = some l := by
  rw [listToJson, listOfJson?, mapM_eq_some_iff, List.forall₂_map_left_iff, List.forall₂_same]
  exact fun c _ => ofJson?_toJson c

end Condition

end Recurrence
