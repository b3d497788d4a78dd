/-
# Spellings of schedules

A schedule has many spellings: names without data may be wrapped, members may stand in any order,
members with other names may be added and defaults left out.

* `Condition.ofJson?_respelled` : how variants without data are written makes no difference;
* `Rewrites.ofJson?_eq` : one change of a spelling does not change the schedule that is read;
* `SameUpToSpelling.ofJson?_eq` : nor does any run of changes, forwards and backwards;
* `isCanonical_iff` : the writer gives the trees in canonical form.
-/
import Mathlib.Logic.Relation
import Recurrence.Proofs.Json.Grammar

namespace Recurrence

open Json (IsBare IsUnit)

/-! ## Variants without data, written the other way -/

namespace Json

/-- Somewhere in a tree a variant without data is written the other way: the bare name instead of
the object with null, or the object instead of the name. -/
inductive Respelled : Json → Json → Prop
  | bare (name : String) : Respelled (.object [(name, .null)]) (.string name)
  | wrapped (name : String) : Respelled (.string name) (.object [(name, .null)])
  | element {j j' : Json} (before after : List Json) (h : Respelled j j') :
      Respelled (.array (before ++ j :: after)) (.array (before ++ j' :: after))
  | member {j j' : Json} (before after : List (String × Json)) (name : String)
      (h : Respelled j j') :
      Respelled (.object (before ++ (name, j) :: after)) (.object (before ++ (name, j') :: after))

namespace Respelled

variable {j j' p a b : Json} {name : String}

theorem symm (h : Respelled j j') : Respelled j' j := by
  induction h with
  | bare name => exact .wrapped name
  | wrapped name => exact .bare name
  | element before after _ ih => exact .element before after ih
  | member before after name _ ih => exact .member before after name ih

/-- A variant stays one of that name, and what changes is its data or its way of writing. -/
theorem of_variant (h : Respelled (.object [(name, p)]) j') :
    (p = .null ∧ j' = .string name) ∨ ∃ p', j' = .object [(name, p')] ∧ Respelled p p' := by
  generalize ho : Json.object [(name, p)] = o at h
  -- the change is at the variant itself or inside its only member
  cases h with
  | bare name' =>
      simp only [Json.object.injEq, List.cons.injEq, Prod.mk.injEq, and_true] at ho
      obtain ⟨rfl, rfl⟩ := ho
      exact Or.inl ⟨rfl, rfl⟩
  | wrapped | element => cases ho
  | member before after name' h =>
      rcases before with _ | ⟨first, before⟩
      · simp only [List.nil_append, Json.object.injEq, List.cons.injEq, Prod.mk.injEq] at ho
        obtain ⟨⟨rfl, rfl⟩, rfl⟩ := ho
        exact Or.inr ⟨_, rfl, h⟩
      · simp at ho

/-- A variant with data keeps its name, and the data changes. -/
theorem of_data (h : Respelled (.object [(name, p)]) j') (hp : p ≠ .null) :
    ∃ p', j' = .object [(name, p')] ∧ Respelled p p' := by
  rcases h.of_variant with ⟨hnull, -⟩ | hdata
  · exact absurd hnull hp
  · exact hdata

/-- In a pair one of the two elements changes. -/
theorem of_pair (h : Respelled (.array [a, b]) j') :
    (∃ a', j' = .array [a', b] ∧ Respelled a a') ∨
      ∃ b', j' = .array [a, b'] ∧ Respelled b b' := by
  generalize ho : Json.array [a, b] = o at h
  cases h with
  | bare | wrapped | member => cases ho
  | element before after h =>
      rw [Json.array.injEq] at ho
      rcases before with _ | ⟨first, _ | ⟨second, before⟩⟩
      · cases ho
        exact Or.inl ⟨_, rfl, h⟩
      · cases ho
        exact Or.inr ⟨_, rfl, h⟩
      · simp at ho

/-- Both spellings of a name stay spellings of it. -/
theorem of_isUnit (hu : IsUnit name j) (h : Respelled j j') : IsUnit name j' := by
  rcases hu with rfl | rfl
  · cases h with
    | wrapped => exact Or.inr rfl
  · rcases h.of_variant with ⟨-, rfl⟩ | ⟨p', -, hp⟩
    · exact Or.inl rfl
    · cases hp

/-- A pair of numbers has only one spelling. -/
theorem not_pair {m n : Int} : ¬ Respelled (.array [.integer m, .integer n]) j := by
  intro h
  rcases h.of_pair with ⟨a', -, ha⟩ | ⟨b', -, hb⟩
  · cases ha
  · cases hb

end Respelled

end Json

open Json (Respelled)

/-- Respelling inside a base keeps its meaning. -/
theorem StepBase.Spells.respelled {j j' : Json} {base : StepBase} (hs : Spells IsUnit j base)
    (h : Respelled j j') : Spells IsUnit j' base := by
  cases hs with
  | any hu => exact .any (h.of_isUnit hu)
  | range first last =>
      obtain ⟨p', -, hp⟩ := h.of_data nofun
      exact absurd hp Respelled.not_pair

theorem DayAnchor.Spells.respelled {j j' : Json} {anchor : DayAnchor}
    (hs : Spells IsUnit j anchor) (h : Respelled j j') : Spells IsUnit j' anchor := by
  cases hs with
  | lastDay hu => exact .lastDay (h.of_isUnit hu)
  | day number =>
      obtain ⟨p', -, hp⟩ := h.of_data nofun
      cases hp

/-- A condition keeps its meaning when a variant without data in it is written the other way. -/
theorem Condition.Spells.respelled {j j' : Json} {c : Condition} (hs : Spells IsUnit j c)
    (h : Respelled j j') : Spells IsUnit j' c := by
  cases hs with
  | any hu => exact .any (h.of_isUnit hu)
  | lastDay hu => exact .lastDay (h.of_isUnit hu)
  | step hbase divisor =>
      obtain ⟨p', rfl, hp⟩ := h.of_data nofun
      rcases hp.of_pair with ⟨b', rfl, hb⟩ | ⟨d', -, hd⟩
      · exact .step (hbase.respelled hb) divisor
      · cases hd
  | nearestWorkday hanchor =>
      obtain ⟨p', rfl, hp⟩ := h.of_data hanchor.ne_null
      exact .nearestWorkday (hanchor.respelled hp)
  -- what remains holds numbers only, and these have one spelling
  | number | lastWeekday =>
      obtain ⟨p', -, hp⟩ := h.of_data nofun
      cases hp
  | range | nthWeekday =>
      obtain ⟨p', -, hp⟩ := h.of_data nofun
      exact absurd hp Respelled.not_pair

/-- **The reader does not see how variants without data are written**, at whatever depth. -/
theorem Condition.ofJson?_respelled {j j' : Json} (h : Respelled j j') :
    ofJson? j' = ofJson? j := by
  ext c
  rw [ofJson?_eq_some_iff, ofJson?_eq_some_iff]
  exact ⟨fun hs => hs.respelled h.symm, fun hs => hs.respelled h⟩

/-- Lists of conditions are read alike. -/
theorem Condition.listOfJson?_respelled {j j' : Json} (h : Respelled j j') :
    listOfJson? j' = listOfJson? j := by
  cases h with
  | bare | wrapped | member => rfl
  | element before after h =>
      simp only [listOfJson?, List.mapM_append, List.mapM_cons, ofJson?_respelled h]

namespace Schedule

variable {j j' : Json} {s : Schedule} {p : Slot}

theorem partOfGiven?_respelled (h : Respelled j j') :
    partOfGiven? p (some j') = partOfGiven? p (some j) := by
  cases p with
  | reboot => cases h <;> rfl
  | conditions f =>
      simp only [partOfGiven?, conditionsOfGiven?, Condition.listOfJson?_respelled h]

/-- Respelling one element of an array changes no part that is read from it by its place. -/
theorem partOfGiven?_element {before after : List Json} {i : Nat} (h : Respelled j j') :
    partOfGiven? p (before ++ j' :: after)[i]? = partOfGiven? p (before ++ j :: after)[i]? := by
  rcases Nat.lt_trichotomy i before.length with hi | rfl | hi
  · rw [List.getElem?_append_left hi, List.getElem?_append_left hi]
  · rw [List.getElem?_append_right (Nat.le_refl _), List.getElem?_append_right (Nat.le_refl _),
      Nat.sub_self, List.getElem?_cons_zero, List.getElem?_cons_zero, partOfGiven?_respelled h]
  · obtain ⟨k, hk⟩ : ∃ k, i - before.length = k + 1 := ⟨i - before.length - 1, by omega⟩
    rw [List.getElem?_append_right (Nat.le_of_lt hi), List.getElem?_append_right (Nat.le_of_lt hi),
      hk, List.getElem?_cons_succ, List.getElem?_cons_succ]

/-! ## Canonical form -/

/-- The tree is the object of all eight parts in their order, in which variants without data are
bare names. -/
def IsCanonical (j : Json) : Prop :=
  ∃ value : Slot → Json, j = .object (Json.keys.map fun key => (key.1, value key.2)) ∧
    ∀ p, Json.IsPart IsBare p (value p)

theorem toJson_eq_keys (s : Schedule) :
    s.toJson = .object (Json.keys.map fun key => (key.1, (s.setting key.2).toJson)) := by
  simp only [← partToJson_eq]
  rfl

/-- **The writer gives the trees in canonical form.** -/
theorem isCanonical_iff : IsCanonical j ↔ ∃ s : Schedule, j = s.toJson := by
  constructor
  · rintro ⟨value, rfl, hvalue⟩
    simp only [Json.isPart_iff, ← Setting.eq_toJson_iff] at hvalue
    choose a hslot ha using hvalue
    obtain ⟨s, hs⟩ := exists_setting hslot
    refine ⟨s, ?_⟩
    rw [toJson_eq_keys]
    simp only [hs, ← ha]
  · rintro ⟨s, rfl⟩
    refine ⟨fun p => (s.setting p).toJson, s.toJson_eq_keys, ?_⟩
    intro p
    exact Json.isPart_iff.mpr ⟨s.setting p, s.slot_setting p, Setting.eq_toJson_iff.mp rfl⟩

/-- **A written schedule is read back.** -/
theorem ofJson?_toJson (s : Schedule) : ofJson? s.toJson = some s := by
  rw [toJson, ofJson?_object, ofGiven?_eq_some_iff_parts]
  intro p
  rw [lookup_parts, partToJson_eq]
  exact partOfGiven?_some_iff.mpr ⟨s.slot_setting p, (s.setting p).spells_toJson⟩

/-! ## Changes of spelling -/

/-- One change of the spelling of a schedule.  Only members that have a name of their own are
added or dropped. -/
inductive Rewrites : Json → Json → Prop
  | reorder {members members' : List (String × Json)} (h : members.Perm members') :
      Rewrites (.object members) (.object members')
  | foreign (before after : List (String × Json)) (name : String) (v : Json)
      (hforeign : ∀ p, (name, p) ∉ Json.keys)
      (hnew : name ∉ (before ++ after).map Prod.fst) :
      Rewrites (.object (before ++ after)) (.object (before ++ (name, v) :: after))
  | dropped (before after : List (String × Json)) (p : Slot) (v : Json)
      (hdefault : (Setting.default p).Spells IsUnit v)
      (hnew : p.name ∉ (before ++ after).map Prod.fst) :
      Rewrites (.object (before ++ (p.name, v) :: after)) (.object (before ++ after))
  | member (before after : List (String × Json)) (name : String) {v v' : Json}
      (h : Respelled v v') :
      Rewrites (.object (before ++ (name, v) :: after)) (.object (before ++ (name, v') :: after))
  | element (before after : List Json) {v v' : Json} (h : Respelled v v') :
      Rewrites (.array (before ++ v :: after)) (.array (before ++ v' :: after))

namespace Rewrites

/-- A change of spelling keeps names distinct. -/
theorem distinctNames_iff (h : Rewrites j j') : j.DistinctNames ↔ j'.DistinctNames := by
  cases h with
  | reorder h => exact (h.map Prod.fst).nodup_iff
  | foreign before after name v hforeign hnew =>
      exact (Json.nodup_insert_iff.trans (and_iff_right hnew)).symm
  | dropped before after p v hdefault hnew =>
      exact Json.nodup_insert_iff.trans (and_iff_right hnew)
  | member before after name h => simp [Json.DistinctNames]
  | element before after h => exact Iff.rfl

/-- **One change of spelling does not change the schedule that is read.** -/
theorem ofJson?_eq (hj : j.DistinctNames) (h : Rewrites j j') : ofJson? j' = ofJson? j := by
  have hj' := h.distinctNames_iff.mp hj
  cases h with
  | reorder h =>
      rw [ofJson?_object, ofJson?_object]
      congr 1
      funext p
      rw [Json.lookup_perm h hj]
  | foreign before after name v hforeign hnew =>
      rw [ofJson?_object, ofJson?_object]
      congr 1
      funext p
      have hne : p.name ≠ name := fun he => hforeign p (Json.mem_keys.mpr he.symm)
      rw [Json.lookup_insert_of_ne hne]
  | dropped before after p v hdefault hnew =>
      rw [ofJson?_object, ofJson?_object]
      refine ofGiven?_congr ?_
      intro q
      by_cases hq : q = p
      · -- the one tree gives nothing for the part, the other its default
        subst hq
        rw [Json.lookup_eq_none_iff.mpr hnew, Json.lookup_insert_self hj, partOfGiven?_none,
          partOfGiven?_some_iff.mpr ⟨Setting.slot_default q, hdefault⟩]
      · have hne : q.name ≠ p.name := fun he => hq (Slot.name_injective he)
        rw [Json.lookup_insert_of_ne hne]
  | member before after name h =>
      rw [ofJson?_object, ofJson?_object]
      refine ofGiven?_congr ?_
      intro p
      by_cases hp : p.name = name
      · rw [hp, Json.lookup_insert_self hj', Json.lookup_insert_self hj, partOfGiven?_respelled h]
      · rw [Json.lookup_insert_of_ne hp, Json.lookup_insert_of_ne hp]
  | element before after h =>
      simp only [ofJson?, givenParts?, List.length_append, List.length_cons]
      -- both arrays are as long
      split
      · simp only [Option.bind_eq_bind, Option.bind_some]
        refine ofGiven?_congr ?_
        intro p
        exact partOfGiven?_element h
      · rfl

end Rewrites

/-- The trees that come from each other by changes of spelling, in either direction. -/
def SameUpToSpelling : Json → Json → Prop := Relation.EqvGen Rewrites

/-- Spelling changes neither add nor remove a name that stands twice. -/
theorem SameUpToSpelling.distinctNames_iff (h : SameUpToSpelling j j') :
    j.DistinctNames ↔ j'.DistinctNames := by
  induction h with
  | rel _ _ h => exact h.distinctNames_iff
  | refl _ => exact Iff.rfl
  | symm _ _ _ ih => exact ih.symm
  | trans _ _ _ _ _ ih₁ ih₂ => exact ih₁.trans ih₂

/-- **Any run of changes of spelling leaves the schedule that is read.** -/
theorem SameUpToSpelling.ofJson?_eq (h : SameUpToSpelling j j') (hj : j.DistinctNames) :
    ofJson? j' = ofJson? j := by
  induction h with
  | rel _ _ h => exact h.ofJson?_eq hj
  | refl _ => rfl
  | symm _ _ h ih =>
      -- names are distinct on both sides, so the change can be taken back
      exact (ih ((distinctNames_iff h).mpr hj)).symm
  | trans _ _ _ h _ ih₁ ih₂ => exact (ih₂ ((distinctNames_iff h).mp hj)).trans (ih₁ hj)

end Schedule

end Recurrence
