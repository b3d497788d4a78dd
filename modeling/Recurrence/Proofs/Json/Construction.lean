/-
# Three ways to make a schedule

A schedule is made by settings put into a draft one after the other, or read from an object of
named parts, or from an array of parts in their order.  The three agree, because each looks at one
thing only, the value that is given for each part.

* `Draft.value_ofSettings` : a run of settings leaves in each part the last value set for it;
* `Schedule.ofJson?_zip` : an array is read like the object of its elements under the names of
  the parts;
* `constructions_agree` : the three ways to make a schedule agree.
-/
import Recurrence.Proofs.Json.Grammar

namespace Recurrence

open Json (IsUnit)

/-! ## The last setting of a part -/

namespace Setting

variable {settings : List Setting} {a : Setting} {p : Slot}

/-- The last of the settings for a part. -/
def last? (settings : List Setting) (p : Slot) : Option Setting :=
  settings.reverse.find? fun a => a.slot = p

/-- A setting counts if no later one is for its part. -/
theorem last?_cons (a : Setting) (rest : List Setting) (p : Slot) :
    last? (a :: rest) p = (last? rest p).or (if a.slot = p then some a else none) := by
  rw [last?, List.reverse_cons, List.find?_append, ← last?]
  by_cases ha : a.slot = p <;> simp [ha]

theorem last?_eq_none_iff : last? settings p = none ↔ ∀ a ∈ settings, a.slot ≠ p := by
  simp [last?]

/-- A setting is the last for its part if none for that part comes after it. -/
theorem last?_eq_some_iff :
    last? settings p = some a ↔
      a.slot = p ∧ ∃ before after, settings = before ++ a :: after ∧ ∀ b ∈ after, b.slot ≠ p := by
  rw [last?, List.find?_eq_some_iff_append]
  simp only [decide_eq_true_eq, Bool.not_eq_true', decide_eq_false_iff_not]
  refine and_congr_right fun _ => ?_
  constructor
  · rintro ⟨after, before, h, hafter⟩
    refine ⟨before.reverse, after.reverse, ?_, by simpa using hafter⟩
    rw [← List.reverse_reverse settings, h]
    simp
  · rintro ⟨before, after, rfl, hafter⟩
    exact ⟨after.reverse, before.reverse, by simp, by simpa using hafter⟩

/-- If no part is set twice, every setting is the last for its part. -/
theorem last?_eq_some_iff_mem (hd : (settings.map slot).Nodup) :
    last? settings p = some a ↔ a ∈ settings ∧ a.slot = p := by
  rw [last?_eq_some_iff]
  constructor
  · rintro ⟨ha, before, after, rfl, -⟩
    exact ⟨by simp, ha⟩
  · rintro ⟨hmem, ha⟩
    obtain ⟨before, after, rfl⟩ := List.append_of_mem hmem
    refine ⟨ha, before, after, rfl, ?_⟩
    intro b hb hslot
    rw [List.map_append, List.map_cons, List.nodup_append, List.nodup_cons] at hd
    exact hd.2.1.1 (by rw [ha, ← hslot]; exact List.mem_map_of_mem hb)

end Setting

/-! ## Runs of settings -/

namespace Draft

variable {d : Draft} {a b : Setting} {p : Slot} {settings : List Setting}

/-- What has been set for a part. -/
def value (d : Draft) : Slot → Option Setting
  | .reboot => d.reboot.map .reboot
  | .conditions f => (d.conditions f).map (.conditions f)

@[simp] theorem value_empty (p : Slot) : empty.value p = none := by cases p <;> rfl

/-- **A setting replaces the value of its own part** and of no other. -/
theorem value_set (d : Draft) (a : Setting) (p : Slot) :
    (d.set a).value p = if a.slot = p then some a else d.value p := by
  cases p with
  | reboot => cases a <;> simp [value, Setting.slot]
  | conditions g =>
      cases a with
      | reboot _ => simp [value, Setting.slot]
      | conditions f list =>
          simp only [value, conditions_set_conditions, Setting.slot, Slot.conditions.injEq]
          by_cases h : g = f
          · simp [h]
          · simp [h, Ne.symm h]

/-- After a run of settings a part holds the last one for it, or what it held before. -/
theorem value_foldl_set (settings : List Setting) (d : Draft) (p : Slot) :
    (settings.foldl set d).value p = (Setting.last? settings p).or (d.value p) := by
  induction settings generalizing d with
  | nil => rfl
  | cons a rest ih =>
      -- what the rest sets for the part comes later than `a`, so it is looked at first
      rw [List.foldl_cons, ih, value_set, Setting.last?_cons, Option.or_assoc]
      by_cases ha : a.slot = p <;> simp [ha]

/-- **After a run of settings each part has the last value set for it.** -/
theorem value_ofSettings (settings : List Setting) (p : Slot) :
    (ofSettings settings).value p = Setting.last? settings p := by
  rw [ofSettings, value_foldl_set, value_empty, Option.or_none]

/-- What is finished is what was set, and the default where nothing was set. -/
theorem setting_build (d : Draft) (p : Slot) :
    d.build.setting p = (d.value p).getD (.default p) := by
  cases p with
  | reboot => cases h : d.reboot <;> simp [Schedule.setting, value, h, Setting.default]
  | conditions f =>
      cases h : d.conditions f <;> simp [Schedule.setting, value, h, Setting.default]

/-- Settings of different parts commute wherever they stand next to each other. -/
theorem ofSettings_swap (before after : List Setting) (h : a.slot ≠ b.slot) :
    ofSettings (before ++ b :: a :: after) = ofSettings (before ++ a :: b :: after) := by
  simp only [ofSettings, List.foldl_append, List.foldl_cons, set_set_comm _ h]

/-- The last list that is set for a field is the list of the schedule. -/
theorem conditions_build_of_last (f : Field) (before : List Setting) (list : List Condition)
    (after : List Setting) (h : ∀ a ∈ after, a.slot ≠ .conditions f) :
    (ofSettings (before ++ .conditions f list :: after)).build.conditions f = list := by
  have hlast : Setting.last? (before ++ .conditions f list :: after) (.conditions f) =
      some (.conditions f list) :=
    Setting.last?_eq_some_iff.mpr ⟨rfl, before, after, rfl, h⟩
  have hset := setting_build (ofSettings (before ++ .conditions f list :: after)) (.conditions f)
  rw [value_ofSettings, hlast] at hset
  exact (Setting.conditions.inj hset).2

/-- A field that is never set accepts every value. -/
theorem conditions_build_of_unset (f : Field) (h : ∀ a ∈ settings, a.slot ≠ .conditions f) :
    (ofSettings settings).build.conditions f = [.any] := by
  have hset := setting_build (ofSettings settings) (.conditions f)
  rw [value_ofSettings, Setting.last?_eq_none_iff.mpr h] at hset
  exact (Setting.conditions.inj hset).2

theorem slot_of_value (h : d.value p = some a) : a.slot = p := by
  cases p with
  | reboot =>
      obtain ⟨_, -, rfl⟩ := Option.map_eq_some_iff.mp h
      rfl
  | conditions f =>
      obtain ⟨_, -, rfl⟩ := Option.map_eq_some_iff.mp h
      rfl

/-- **A tree is read as the finished draft if it gives what was set**: a spelling of the value of
each part that was set, and nothing for the others. -/
theorem ofGiven?_eq_some_build {given : Slot → Option Json}
    (hunset : ∀ p, d.value p = none → given p = none)
    (hset : ∀ p a, d.value p = some a → ∃ j, given p = some j ∧ a.Spells IsUnit j) :
    Schedule.ofGiven? given = some d.build := by
  rw [Schedule.ofGiven?_eq_some_iff_parts]
  intro p
  rw [setting_build]
  cases hv : d.value p with
  | none => rw [hunset p hv, Schedule.partOfGiven?_none, Option.getD_none]
  | some a =>
      obtain ⟨j, hj, ha⟩ := hset p a hv
      rw [hj, Schedule.partOfGiven?_some_iff.mpr ⟨slot_of_value hv, ha⟩, Option.getD_some]

end Draft

/-! ## Objects of last values -/

namespace Schedule

variable {settings : List Setting}

/-- The parts that are set, each with its name and its last value as a tree. -/
def lastMembers (settings : List Setting) : List (String × Json) :=
  Json.keys.filterMap fun key => (Setting.last? settings key.2).map fun a => (key.1, a.toJson)

/-- The object has one member for every part that was set, with its last value. -/
theorem mem_lastMembers {p : Slot} {v : Json} :
    (p.name, v) ∈ lastMembers settings ↔ ∃ a, Setting.last? settings p = some a ∧ a.toJson = v := by
  simp only [lastMembers, List.mem_filterMap, Option.map_eq_some_iff, Prod.mk.injEq, Prod.exists]
  constructor
  · rintro ⟨name, q, hkey, a, ha, hname, rfl⟩
    have hq : q = p := Slot.name_injective ((Json.mem_keys.mp hkey).symm.trans hname)
    exact ⟨a, hq ▸ ha, rfl⟩
  · rintro ⟨a, ha, rfl⟩
    exact ⟨p.name, p, Json.mem_keys.mpr rfl, a, ha, rfl, rfl⟩

theorem nodup_lastMembers (settings : List Setting) :
    ((lastMembers settings).map Prod.fst).Nodup := by
  -- a part that was not set leaves out its name, and nothing else happens to the names
  have hnames : ((lastMembers settings).map Prod.fst).Sublist (Json.keys.map Prod.fst) := by
    rw [lastMembers]
    generalize Json.keys = ks
    induction ks with
    | nil => exact .slnil
    | cons key ks ih =>
        cases h : Setting.last? settings key.2 with
        | none => simpa [h] using ih.cons key.1
        | some a => simpa [h] using ih
  exact hnames.nodup (by decide)

/-- Under the name of a part stands its last value. -/
theorem lookup_lastMembers (settings : List Setting) (p : Slot) :
    (lastMembers settings).lookup p.name = (Setting.last? settings p).map Setting.toJson := by
  ext v
  rw [Json.lookup_eq_some_iff_mem (nodup_lastMembers settings), mem_lastMembers,
    Option.map_eq_some_iff]

/-- **The object of the last values is read as the finished draft**, in whatever order its members
stand. -/
theorem ofJson?_lastMembers {members : List (String × Json)}
    (h : members.Perm (lastMembers settings)) :
    ofJson? (.object members) = some (Draft.ofSettings settings).build := by
  have hd := (h.map Prod.fst).nodup_iff.mpr (nodup_lastMembers settings)
  have hgiven : ∀ p, members.lookup p.name =
      ((Draft.ofSettings settings).value p).map Setting.toJson := by
    intro p
    rw [Json.lookup_perm h hd, lookup_lastMembers, Draft.value_ofSettings]
  rw [ofJson?_object]
  refine Draft.ofGiven?_eq_some_build ?_ ?_
  · intro p hv
    rw [hgiven, hv, Option.map_none]
  · intro p a hv
    rw [hgiven, hv]
    exact ⟨a.toJson, rfl, a.spells_toJson⟩

example : ofJson? (.object []) = some {} := rfl

/-! ## Arrays and their objects -/

/-- The names of the parts that an array gives. -/
theorem nodup_zip_names {elements : List Json} (h : elements.length ≤ 8) :
    (((Json.keys.map Prod.fst).zip elements).map Prod.fst).Nodup := by
  have hmin : min (Json.keys.map Prod.fst).length elements.length = elements.length :=
    Nat.min_eq_right h
  rw [List.zip_eq_zip_take_min, hmin, List.take_length, List.map_fst_zip]
  · exact (List.take_sublist _ _).nodup (by decide)
  · exact List.length_take_le _ _

theorem getElem?_names {i : Nat} {p : Slot} :
    (Json.keys.map Prod.fst)[i]? = some p.name ↔ i = p.position := by
  rw [List.getElem?_map, Option.map_eq_some_iff]
  constructor
  · rintro ⟨⟨name, q⟩, hkey, rfl⟩
    obtain ⟨rfl, hname⟩ := Json.getElem?_keys.mp hkey
    rw [Slot.name_injective hname]
  · rintro rfl
    exact ⟨_, Json.getElem?_keys.mpr ⟨rfl, rfl⟩, rfl⟩

/-- **An array is read like the object of its elements** under the names of the first parts. -/
theorem ofJson?_zip {elements : List Json} (h : elements.length ≤ 8) :
    ofJson? (.array elements) =
      ofJson? (.object ((Json.keys.map Prod.fst).zip elements)) := by
  rw [ofJson?_array h, ofJson?_object]
  congr 1
  funext p
  ext v
  rw [Json.lookup_eq_some_iff_mem (nodup_zip_names h), List.mem_iff_getElem?]
  simp only [List.getElem?_zip_eq_some, getElem?_names]
  constructor
  · exact fun hv => ⟨_, rfl, hv⟩
  · rintro ⟨_, rfl, hv⟩
    exact hv

/-- Settings for the first parts in their order stand at the places of their parts. -/
theorem last?_eq_getElem? {k : Nat}
    (h : settings.map Setting.slot = (Json.keys.map Prod.snd).take k) (p : Slot) :
    Setting.last? settings p = settings[p.position]? := by
  have hd : (settings.map Setting.slot).Nodup := by
    rw [h]
    exact (List.take_sublist _ _).nodup (by decide)
  -- the settings run through the parts, so each stands at the place of its part
  have hplace : ∀ (i : Nat) (a : Setting), settings[i]? = some a → i = a.slot.position := by
    intro i a ha
    have hi : ((Json.keys.map Prod.snd).take k)[i]? = some a.slot := by
      rw [← h, List.getElem?_map, ha, Option.map_some]
    rw [List.getElem?_take, Option.ite_none_right_eq_some] at hi
    exact getElem?_all_iff.mp hi.2
  ext a
  rw [Setting.last?_eq_some_iff_mem hd]
  constructor
  · rintro ⟨hmem, rfl⟩
    obtain ⟨i, hi⟩ := List.mem_iff_getElem?.mp hmem
    rw [← hplace i a hi]
    exact hi
  · intro ha
    exact ⟨List.mem_of_getElem? ha, (position_injective (hplace _ a ha)).symm⟩

/-- Settings for the parts in their order are at most eight. -/
theorem length_le_of_slots {k : Nat} {elements : List Json}
    (h : settings.map Setting.slot = (Json.keys.map Prod.snd).take k)
    (hv : List.Forall₂ (Setting.Spells IsUnit) elements settings) : elements.length ≤ 8 := by
  have hlen := congrArg List.length h
  rw [List.length_map, List.length_take] at hlen
  rw [hv.length_eq, hlen]
  exact Nat.min_le_right _ _

/-- **An array of the values of the first parts is read as the draft in which they are set.** -/
theorem ofJson?_array_eq_some_build {k : Nat} {elements : List Json}
    (h : settings.map Setting.slot = (Json.keys.map Prod.snd).take k)
    (hv : List.Forall₂ (Setting.Spells IsUnit) elements settings) :
    ofJson? (.array elements) = some (Draft.ofSettings settings).build := by
  rw [ofJson?_array (length_le_of_slots h hv)]
  refine Draft.ofGiven?_eq_some_build ?_ ?_
  · intro p hp
    rw [Draft.value_ofSettings, last?_eq_getElem? h, List.getElem?_eq_none_iff] at hp
    rw [List.getElem?_eq_none_iff, hv.length_eq]
    exact hp
  · intro p a hp
    rw [Draft.value_ofSettings, last?_eq_getElem? h] at hp
    obtain ⟨hi, rfl⟩ := List.getElem?_eq_some_iff.mp hp
    have hi' : p.position < elements.length := by rw [hv.length_eq]; exact hi
    exact ⟨_, List.getElem?_eq_getElem hi', hv.get hi' hi⟩

/-! ## Agreement -/

/-- What holds of the schedule that a run of settings makes. -/
structure ConstructionsAgree (settings : List Setting) : Prop where
  /-- It is read from the object of the last values, in whatever order the members stand. -/
  object : ∀ members, members.Perm (lastMembers settings) →
    ofJson? (.object members) = some (Draft.ofSettings settings).build
  /-- Two settings of different parts may be exchanged. -/
  swap : ∀ before a b after, settings = before ++ a :: b :: after → a.slot ≠ b.slot →
    Draft.ofSettings (before ++ b :: a :: after) = Draft.ofSettings settings
  /-- It has the last list that was set for a field, -/
  conditions_set : ∀ f before list after, settings = before ++ .conditions f list :: after →
    (∀ a ∈ after, a.slot ≠ .conditions f) →
      (Draft.ofSettings settings).build.conditions f = list
  /-- or the condition `any`, if none was set. -/
  conditions_unset : ∀ f, (∀ a ∈ settings, a.slot ≠ .conditions f) →
    (Draft.ofSettings settings).build.conditions f = [.any]
  /-- If the settings are for the first parts in their order, it is read from an array of their
  values, however spelled, and from the object of these values. -/
  array : ∀ k elements, settings.map Setting.slot = (Json.keys.map Prod.snd).take k →
    List.Forall₂ (Setting.Spells IsUnit) elements settings →
      ofJson? (.array elements) = some (Draft.ofSettings settings).build ∧
        ofJson? (.object ((Json.keys.map Prod.fst).zip elements)) =
          some (Draft.ofSettings settings).build

/-- **Settings, objects and arrays make the same schedules.**  An array of at most eight elements
is read like the object of its elements, well formed or not; and every run of settings makes the
schedule that is read from its values. -/
theorem constructions_agree :
    (∀ elements : List Json, elements.length ≤ 8 →
      ofJson? (.array elements) = ofJson? (.object ((Json.keys.map Prod.fst).zip elements))) ∧
      ∀ settings, ConstructionsAgree settings := by
  refine ⟨fun elements h => ofJson?_zip h, ?_⟩
  intro settings
  constructor
  case object => exact fun members h => ofJson?_lastMembers h
  case swap =>
    rintro before a b after rfl h
    exact Draft.ofSettings_swap before after h
  case conditions_set =>
    rintro f before list after rfl h
    exact Draft.conditions_build_of_last f before list after h
  case conditions_unset => exact fun f h => Draft.conditions_build_of_unset f h
  case array =>
    intro k elements h hv
    have harray := ofJson?_array_eq_some_build h hv
    have hlen := length_le_of_slots h hv
    exact ⟨harray, ofJson?_zip hlen ▸ harray⟩

/-- The days are set twice, at last to the empty list. -/
theorem constructions_agree_reset_days :
    let settings := [Setting.conditions .day [.lastDay], .reboot true, .conditions .day []]
    let members := [("day", Json.array []), ("reboot", .bool true)]
    members.Perm (lastMembers settings) ∧
      ofJson? (.object members) = some { reboot := true, day := [] } ∧
      (Draft.ofSettings settings).build.conditions .day = [] ∧
      ofJson? (.array [.bool true]) = ofJson? (.object [("reboot", .bool true)]) := by
  intro settings members
  have hmembers : members.Perm (lastMembers settings) := List.Perm.swap ..
  refine ⟨hmembers, (constructions_agree.2 settings).object members hmembers, ?_, ?_⟩
  · exact (constructions_agree.2 settings).conditions_set .day
      [.conditions .day [.lastDay], .reboot true] [] [] rfl (by simp)
  · exact constructions_agree.1 [.bool true] (by decide)

end Schedule

end Recurrence
