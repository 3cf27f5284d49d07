import AuditHours.Proofs.Json.Fields

/-!
Replacing the value at the end of a path of keys. The value there becomes the new one, the objects
above it keep their keys in order, and what lies apart from the path stays as it is.
-/
namespace AuditHours.Json

theorem mem_setField {α : Type} {fields : List (String × α)} {key : String} {value : α}
    {field : String × α} (h : field ∈ setField fields key value) :
    field = (key, value) ∨ field ∈ fields := by
  induction fields with
  | nil => exact Or.inl (by simpa [setField] using h)
  | cons first rest ih =>
    unfold setField at h
    split at h
    · rcases List.mem_cons.mp h with hnew | hrest
      · exact Or.inl hnew
      · exact Or.inr (List.mem_cons_of_mem _ hrest)
    · rcases List.mem_cons.mp h with hfirst | hrest
      · exact Or.inr (hfirst ▸ List.mem_cons_self ..)
      · exact (ih hrest).imp_right (List.mem_cons_of_mem _)

namespace Value

/-- A value with another one in place of what a path of keys leads to. A path that leads to nothing
changes nothing. -/
def replaceAt : Value → List String → Value → Value
  | _, [], w => w
  | v, key :: path, w => match v with
    | .obj fields => match field? fields key with
      | some under => .obj (setField fields key (under.replaceAt path w))
      | none => .obj fields
    | _ => v

variable {fields : Fields} {v u w under : Value} {key : String} {path place : List String}

theorem at?_cons_of_ne_obj (h : ∀ fields, v ≠ .obj fields) : v.at? (key :: path) = none := by
  cases v with
  | obj fields => exact absurd rfl (h fields)
  | null | bool | int | real | str | arr => rfl

theorem replaceAt_obj_cons (h : field? fields key = some under) :
    (Value.obj fields).replaceAt (key :: path) w =
      .obj (setField fields key (under.replaceAt path w)) := by
  simp [replaceAt, h]

theorem at?_cons_eq_some (h : v.at? (key :: path) = some u) :
    ∃ fields under, v = .obj fields ∧ field? fields key = some under ∧ under.at? path = some u := by
  cases v with
  | obj fields =>
    obtain ⟨under, hunder, hu⟩ := Option.bind_eq_some_iff.mp h
    exact ⟨fields, under, rfl, hunder, hu⟩
  | null | bool | int | real | str | arr => simp [at?, get?] at h

theorem at?_replaceAt_self (h : v.at? path = some u) : (v.replaceAt path w).at? path = some w := by
  induction path generalizing v with
  | nil => rfl
  | cons key path ih =>
    obtain ⟨fields, under, rfl, hunder, hu⟩ := at?_cons_eq_some h
    rw [replaceAt_obj_cons hunder, at?_obj_cons, field?_setField_self]
    exact ih hu

/-- Neither above nor below the path, nothing changes. -/
theorem at?_replaceAt_of_apart (hplace : ¬ place <+: path) (hpath : ¬ path <+: place) :
    (v.replaceAt path w).at? place = v.at? place := by
  induction path generalizing v place with
  | nil => exact absurd List.nil_prefix hpath
  | cons key path ih =>
    cases place with
    | nil => exact absurd List.nil_prefix hplace
    | cons other place =>
      cases v with
      | null | bool | int | real | str | arr => rfl
      | obj fields =>
        cases hunder : field? fields key with
        | none => simp [replaceAt, hunder]
        | some under =>
          rw [replaceAt_obj_cons hunder, at?_obj_cons, at?_obj_cons]
          by_cases hkey : other = key
          · subst hkey
            rw [field?_setField_self, hunder]
            refine ih ?_ ?_
            · exact fun h => hplace (List.cons_prefix_cons.mpr ⟨rfl, h⟩)
            · exact fun h => hpath (List.cons_prefix_cons.mpr ⟨rfl, h⟩)
          · rw [field?_setField_of_ne _ _ hkey]

/-- Above the path stand objects, and these keep their keys. -/
theorem at?_replaceAt_of_above (h : v.at? path = some u) (hplace : place <+: path)
    (hne : place ≠ path) : ∃ fields fields', v.at? place = some (.obj fields) ∧
      (v.replaceAt path w).at? place = some (.obj fields') ∧
      fields'.map Prod.fst = fields.map Prod.fst := by
  induction path generalizing v place with
  | nil => exact absurd (List.prefix_nil.mp hplace) hne
  | cons key path ih =>
    obtain ⟨fields, under, rfl, hunder, hu⟩ := at?_cons_eq_some h
    rw [replaceAt_obj_cons hunder]
    cases place with
    | nil =>
      exact ⟨fields, _, rfl, rfl, keys_setField_of_mem (mem_keys_of_field? hunder) _⟩
    | cons other place =>
      obtain ⟨rfl, hrest⟩ := List.cons_prefix_cons.mp hplace
      rw [at?_obj_cons, at?_obj_cons, field?_setField_self, hunder]
      exact ih hu hrest fun heq => hne (by rw [heq])

theorem Keyed.replaceAt (hv : v.Keyed) (hw : w.Keyed) : (v.replaceAt path w).Keyed := by
  induction path generalizing v with
  | nil => exact hw
  | cons key path ih =>
    cases v with
    | null | bool | int | real | str | arr => exact hv
    | obj fields =>
      cases hunder : field? fields key with
      | none => simpa [Value.replaceAt, hunder] using hv
      | some under =>
        rw [replaceAt_obj_cons hunder]
        refine keyed_obj ?_ fun field hfield => ?_
        · rw [keys_setField_of_mem (mem_keys_of_field? hunder)]
          exact hv.nodup
        · rcases mem_setField hfield with rfl | hfield
          · exact ih (hv.member hunder)
          · exact hv.member ((field?_eq_some_iff hv.nodup).mpr hfield)

end Value

end AuditHours.Json
