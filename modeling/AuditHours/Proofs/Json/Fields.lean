import AuditHours.Json.Value
import Mathlib.Data.List.Nodup

/-!
Looking up fields. In an object that gives no key twice the value of a key is that of its only
field. A path of keys leads through nested objects to a value.
-/
namespace AuditHours.Json

section

variable {α : Type} {fields : List (String × α)} {key : String} {value : α}

theorem isSome_field?_iff : (field? fields key).isSome = true ↔ key ∈ fields.map Prod.fst := by
  simp [field?, List.find?_isSome]

theorem field?_eq_none_iff : field? fields key = none ↔ key ∉ fields.map Prod.fst := by
  rw [← isSome_field?_iff, Bool.not_eq_true, Option.isSome_eq_false_iff, Option.isNone_iff_eq_none]

theorem mem_of_field? (h : field? fields key = some value) : (key, value) ∈ fields := by
  obtain ⟨field, hfield, rfl⟩ := Option.map_eq_some_iff.mp h
  have hkey : field.1 = key := by simpa using List.find?_some hfield
  rw [← hkey]
  exact List.mem_of_find?_eq_some hfield

theorem mem_keys_of_field? (h : field? fields key = some value) : key ∈ fields.map Prod.fst :=
  isSome_field?_iff.mp (by rw [h]; rfl)

theorem exists_field?_of_mem (h : key ∈ fields.map Prod.fst) :
    ∃ value, field? fields key = some value :=
  Option.isSome_iff_exists.mp (isSome_field?_iff.mpr h)

theorem field?_eq_some_iff (hkeys : (fields.map Prod.fst).Nodup) :
    field? fields key = some value ↔ (key, value) ∈ fields := by
  refine ⟨mem_of_field?, fun hmem => ?_⟩
  obtain ⟨other, hother⟩ := exists_field?_of_mem (List.mem_map.mpr ⟨_, hmem, rfl⟩)
  have hsame := List.inj_on_of_nodup_map hkeys (mem_of_field? hother) hmem rfl
  rw [hother, (Prod.mk.inj hsame).2]

theorem field?_filter_of_ne (fields : List (String × α)) {key other : String} (h : other ≠ key) :
    field? (fields.filter (·.1 != key)) other = field? fields other := by
  induction fields with
  | nil => rfl
  | cons entry rest ih =>
    by_cases hkey : entry.1 = key
    · have hother : (entry.1 == other) = false := by simpa [hkey] using Ne.symm h
      simpa [field?, List.filter_cons, hkey, List.find?_cons, hother, Ne.symm h] using ih
    · by_cases hother : entry.1 = other
      · simp [field?, hother, h]
      · simpa [field?, List.filter_cons, hkey, List.find?_cons, hother] using ih

@[simp]
theorem field?_filter_self (fields : List (String × α)) (key : String) :
    field? (fields.filter (·.1 != key)) key = none := by
  simp [field?]

/-- An object is known from its keys in order and the value at each of them. -/
theorem fields_ext {others : List (String × α)} (hkeys : fields.map Prod.fst = others.map Prod.fst)
    (hnodup : (fields.map Prod.fst).Nodup) (h : ∀ key, field? fields key = field? others key) :
    fields = others := by
  induction fields generalizing others with
  | nil => exact (List.map_eq_nil_iff.mp hkeys.symm).symm
  | cons first rest ih =>
    cases others with
    | nil => simp at hkeys
    | cons second others =>
      obtain ⟨hfirst, hrest⟩ := List.cons.inj hkeys
      obtain ⟨hnew, hnodup⟩ := List.nodup_cons.mp hnodup
      have hvalue : first.2 = second.2 := by simpa [field?, hfirst] using h first.1
      have htail : rest = others := by
        refine ih hrest hnodup fun key => ?_
        by_cases hkey : first.1 = key
        · subst hkey
          rw [field?_eq_none_iff.mpr hnew, field?_eq_none_iff.mpr (hrest ▸ hnew)]
        · simpa [field?, hkey, ← hfirst] using h key
      rw [Prod.ext hfirst hvalue, htail]

theorem setField_of_not_mem (h : key ∉ fields.map Prod.fst) (value : α) :
    setField fields key value = fields ++ [(key, value)] := by
  induction fields with
  | nil => rfl
  | cons first rest ih =>
    have hne : first.1 ≠ key := by
      intro heq
      exact h (by simp [heq])
    have hrest : key ∉ rest.map Prod.fst := fun hmem => h (by simp [hmem])
    simp only [setField, if_neg hne, ih hrest, List.cons_append]

theorem keys_setField_of_mem (h : key ∈ fields.map Prod.fst) (value : α) :
    (setField fields key value).map Prod.fst = fields.map Prod.fst := by
  induction fields with
  | nil => simp at h
  | cons first rest ih =>
    unfold setField
    by_cases hkey : first.1 = key
    · simp [hkey]
    · have hrest : key ∈ rest.map Prod.fst := by simpa [Ne.symm hkey] using h
      rw [if_neg hkey, List.map_cons, ih hrest, List.map_cons]

/-- Pairs that give no key twice are the fields of an object as they are. -/
theorem ofPairs_of_nodup {pairs : List (String × α)} (h : (pairs.map Prod.fst).Nodup) :
    ofPairs pairs = pairs := by
  have hadded : ∀ (added : List (String × α)) (fields : List (String × α)),
      ((fields ++ added).map Prod.fst).Nodup →
      added.foldl (fun fields p => setField fields p.1 p.2) fields = fields ++ added := by
    intro added
    induction added with
    | nil => simp
    | cons first rest ih =>
      intro fields hkeys
      have hnew : first.1 ∉ fields.map Prod.fst := by
        intro hmem
        rw [List.map_append, List.map_cons] at hkeys
        exact (List.nodup_append.mp hkeys).2.2 _ hmem _ (List.mem_cons_self ..) rfl
      rw [List.foldl_cons, setField_of_not_mem hnew, ih _ (by simpa using hkeys)]
      simp
  exact hadded pairs [] h

end

namespace Value

def at? : Value → List String → Option Value
  | v, [] => some v
  | v, key :: path => (v.get? key).bind (at? · path)

/-- No object inside a value gives a key twice. -/
def Keyed (v : Value) : Prop :=
  ∀ path fields, v.at? path = some (.obj fields) → (fields.map Prod.fst).Nodup

variable {fields : Fields} {key : String} {v : Value}

@[simp]
theorem at?_obj_cons (fields : Fields) (key : String) (path : List String) :
    (Value.obj fields).at? (key :: path) = (field? fields key).bind (at? · path) := rfl

theorem at?_append (v : Value) (path rest : List String) :
    v.at? (path ++ rest) = (v.at? path).bind (at? · rest) := by
  induction path generalizing v with
  | nil => rfl
  | cons key path ih =>
    simp only [List.cons_append, at?, Option.bind_assoc]
    exact Option.bind_congr fun under _ => ih under

theorem keyed_obj (hfields : (fields.map Prod.fst).Nodup) (h : ∀ field ∈ fields, field.2.Keyed) :
    (Value.obj fields).Keyed := by
  intro path inner hinner
  cases path with
  | nil =>
    obtain rfl : fields = inner := Value.obj.inj (Option.some.inj hinner)
    exact hfields
  | cons key path =>
    rw [at?_obj_cons, Option.bind_eq_some_iff] at hinner
    obtain ⟨v, hv, hinner⟩ := hinner
    exact h (key, v) (mem_of_field? hv) path inner hinner

theorem keyed_empty : (Value.obj []).Keyed := keyed_obj List.nodup_nil (by simp)

theorem keyed_of_ne_obj (h : ∀ fields, v ≠ .obj fields) : v.Keyed := by
  intro path inner hinner
  cases path with
  | nil => exact absurd (Option.some.inj hinner) (h inner)
  | cons key path =>
    cases v with
    | obj fields => exact absurd rfl (h fields)
    | null | bool | int | real | str | arr => simp [at?, get?] at hinner

theorem Keyed.nodup (h : (Value.obj fields).Keyed) : (fields.map Prod.fst).Nodup := h [] fields rfl

theorem Keyed.member (h : (Value.obj fields).Keyed) (hv : field? fields key = some v) :
    v.Keyed := by
  intro path inner hinner
  refine h (key :: path) inner ?_
  rw [at?_obj_cons, hv]
  exact hinner

end Value

end AuditHours.Json
