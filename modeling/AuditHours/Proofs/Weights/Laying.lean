import AuditHours.Proofs.Json.Fields
import AuditHours.Proofs.Validation.Acceptance
import AuditHours.Weights.Overlay

/-!
Overlays along paths of keys. An overlay fits a document if each of its key paths names a group of
the document and holds an object there, or names a leaf and holds a value that can be read there. A
result follows an overlay if each leaf of the document is in it what the overlay has for the leaf,
or the same number as before. Both are decided member by member, and so is what a group makes of a
document that an overlay is laid over.
-/
namespace AuditHours.Weights

open Number Json Validation

/-! ### Numbers of a table -/

/-- The kinds of the numbers of a table: line bounds, the count of free functions, and hours. -/
inductive Kind where
  | bound
  | count
  | weight

def kindAt : List String → Kind
  | ["sizeThresholds", _] => .bound
  | ["complexityFactors", "baseFunctionCount"] => .count
  | _ => .weight

/-- A value reads as a number of a kind that lies in its range: bounds are whole and above zero, the
count is whole and at least zero, and hours are real and at least zero. -/
inductive Reads : Kind → Value → Amount → Prop
  | bound {v : Value} {n : Int} (hread : wholeNumber v = .ok n) (hrange : 0 < n) :
      Reads .bound v (.whole n)
  | count {v : Value} {n : Int} (hread : wholeNumber v = .ok n) (hrange : 0 ≤ n) :
      Reads .count v (.whole n)
  | weight {v : Value} {x : Float} (hread : realNumber v = .ok x)
      (hrange : (parts x).isAtLeastZero = true) : Reads .weight v (.real x)

/-- Two amounts of the same size: a whole amount may have become the real of its size. -/
inductive SameNumber : Amount → Amount → Prop
  | refl (a : Amount) : SameNumber a a
  | toReal {n : Int} {x : Float} (hsize : (parts x).toInt? = some n) :
      SameNumber (.whole n) (.real x)

def Rereads (kind : Kind) (a : Amount) : Prop :=
  ∃ again, Reads kind (amountValue a) again ∧ SameNumber a again

theorem amountValue_inj {a b : Amount} (h : amountValue a = amountValue b) : a = b := by
  cases a <;> cases b <;> simp_all [amountValue]

theorem amountValue_ne_obj {a : Amount} {fields : Fields} : amountValue a ≠ .obj fields := by
  cases a <;> simp [amountValue]

theorem Reads.ne_obj {kind : Kind} {v : Value} {a : Amount} (h : Reads kind v a)
    (fields : Fields) : v ≠ .obj fields := by
  rintro rfl
  cases h with
  | bound hread | count hread => simp [wholeNumber] at hread
  | weight hread => simp [realNumber] at hread

/-- A number that has been read is read again as it is. -/
theorem Reads.rereads {kind : Kind} {v : Value} {a : Amount} (h : Reads kind v a) :
    Rereads kind a := by
  refine ⟨a, ?_, SameNumber.refl a⟩
  cases h with
  | bound _ hrange => exact Reads.bound rfl hrange
  | count _ hrange => exact Reads.count rfl hrange
  | weight _ hrange => exact Reads.weight rfl hrange

/-! ### Paths through a document -/

def below (key : String) (kinds : List String → Kind) (path : List String) : Kind :=
  kinds (key :: path)

/-- Each key path of an overlay names a group of a document and holds an object there, or names a
leaf and holds a value that reads as a number of the leaf's kind. -/
def Fits (kinds : List String → Kind) (base overlay : Value) : Prop :=
  ∀ path v, overlay.at? path = some v →
    (∃ group fields, base.at? path = some (.obj group) ∧ v = .obj fields) ∨
    ∃ old new, base.at? path = some (amountValue old) ∧ Reads (kinds path) v new

/-- Each leaf of a document is, in a result, what an overlay has for it, or the same number as
before where the overlay does not name it. -/
def Follows (kinds : List String → Kind) (base : Value) (overlay : Option Value) (result : Value) :
    Prop :=
  ∀ path old, base.at? path = some (amountValue old) →
    ∃ new, result.at? path = some (amountValue new) ∧
      (∀ v, overlay.bind (·.at? path) = some v → Reads (kinds path) v new) ∧
      (overlay.bind (·.at? path) = none → SameNumber old new)

/-- Each leaf of a document stays the same when the document is read again. -/
def Sound (kinds : List String → Kind) (base : Value) : Prop :=
  ∀ path a, base.at? path = some (amountValue a) → Rereads (kinds path) a

variable {kinds : List String → Kind} {base given result : Fields} {overlay : Option Value}
  {v : Value} {a b : Amount} {key : String}

@[simp]
theorem at?_amountValue_cons (path : List String) : (amountValue a).at? (key :: path) = none := by
  cases a <;> rfl

theorem at?_amountValue {path : List String}
    (h : (amountValue a).at? path = some (amountValue b)) : path = [] ∧ b = a := by
  cases path with
  | nil => exact ⟨rfl, (amountValue_inj (Option.some.inj h)).symm⟩
  | cons key path => simp at h

theorem at?_amountValue_ne_obj {path : List String} {fields : Fields} :
    (amountValue a).at? path ≠ some (.obj fields) := by
  cases path with
  | nil => exact fun h => amountValue_ne_obj (Option.some.inj h)
  | cons key path => simp

theorem Sound.rereads (h : Sound kinds (amountValue a)) : Rereads (kinds []) a := h [] a rfl

theorem sound_amountValue (h : Rereads (kinds []) a) : Sound kinds (amountValue a) := by
  intro path b hb
  obtain ⟨rfl, rfl⟩ := at?_amountValue hb
  exact h

theorem Sound.member (h : Sound kinds (.obj base)) (hv : field? base key = some v) :
    Sound (below key kinds) v := by
  intro path b hb
  refine h (key :: path) b ?_
  rw [Value.at?_obj_cons, hv]
  exact hb

theorem sound_obj (h : ∀ member ∈ base, Sound (below member.1 kinds) member.2) :
    Sound kinds (.obj base) := by
  intro path b hb
  cases path with
  | nil => exact absurd (Option.some.inj hb).symm amountValue_ne_obj
  | cons key path =>
    rw [Value.at?_obj_cons, Option.bind_eq_some_iff] at hb
    obtain ⟨v, hv, hb⟩ := hb
    exact h (key, v) (mem_of_field? hv) path b hb

@[simp]
theorem fits_amountValue : Fits kinds (amountValue a) v ↔ ∃ new, Reads (kinds []) v new := by
  constructor
  · intro h
    rcases h [] v rfl with ⟨group, _, hgroup, -⟩ | ⟨_, new, -, hnew⟩
    · exact absurd (Option.some.inj hgroup) amountValue_ne_obj
    · exact ⟨new, hnew⟩
  · rintro ⟨new, hnew⟩ path w hw
    cases path with
    | nil => exact Or.inr ⟨a, new, rfl, Option.some.inj hw ▸ hnew⟩
    | cons key path =>
      cases v with
      | obj fields => exact absurd rfl (hnew.ne_obj fields)
      | null | bool | int | real | str | arr => simp [Value.at?, Value.get?] at hw

theorem Fits.obj (h : Fits kinds (.obj base) v) : ∃ fields, v = .obj fields := by
  rcases h [] v rfl with ⟨_, fields, -, hfields⟩ | ⟨old, _, hold, -⟩
  · exact ⟨fields, hfields⟩
  · exact absurd (Option.some.inj hold).symm amountValue_ne_obj

/-- An object fits a group if it has no other keys and each member of it fits. -/
theorem fits_obj (hbase : (base.map Prod.fst).Nodup) :
    Fits kinds (.obj base) (.obj given) ↔
      (∀ key ∈ given.map Prod.fst, key ∈ base.map Prod.fst) ∧
      ∀ member ∈ base, ∀ v, field? given member.1 = some v →
        Fits (below member.1 kinds) member.2 v := by
  constructor
  · intro h
    refine ⟨?_, ?_⟩
    · intro key hkey
      obtain ⟨v, hv⟩ := exists_field?_of_mem hkey
      have hat : (Value.obj given).at? [key] = some v := by
        rw [Value.at?_obj_cons, hv]
        rfl
      have hpresent : ((Value.obj base).at? [key]).isSome = true := by
        rcases h [key] v hat with ⟨_, _, hgroup, -⟩ | ⟨_, _, hleaf, -⟩
        · rw [hgroup]; rfl
        · rw [hleaf]; rfl
      refine isSome_field?_iff.mp ?_
      rw [Value.at?_obj_cons] at hpresent
      exact Option.isSome_of_isSome_bind hpresent
    · intro member hmember v hv path w hw
      have hat : (Value.obj given).at? (member.1 :: path) = some w := by
        rw [Value.at?_obj_cons, hv]
        exact hw
      have hbaseMember := (field?_eq_some_iff hbase).mpr hmember
      have hsub : (Value.obj base).at? (member.1 :: path) = member.2.at? path := by
        rw [Value.at?_obj_cons, hbaseMember]
        rfl
      have hfits := h (member.1 :: path) w hat
      rwa [hsub] at hfits
  · rintro ⟨hkeys, hmembers⟩ path w hw
    cases path with
    | nil => exact Or.inl ⟨base, given, rfl, (Option.some.inj hw).symm⟩
    | cons key path =>
      rw [Value.at?_obj_cons, Option.bind_eq_some_iff] at hw
      obtain ⟨v, hv, hw⟩ := hw
      obtain ⟨under, hunder⟩ := exists_field?_of_mem (hkeys key (mem_keys_of_field? hv))
      have hsub : (Value.obj base).at? (key :: path) = under.at? path := by
        rw [Value.at?_obj_cons, hunder]
        rfl
      rw [hsub]
      exact hmembers (key, under) (mem_of_field? hunder) v hv path w hw

/-- A result follows an overlay of a group if each of its members does. -/
theorem follows_obj
    (h : ∀ member ∈ base, ∃ after, field? result member.1 = some after ∧
      Follows (below member.1 kinds) member.2 (field? given member.1) after) :
    Follows kinds (.obj base) (some (.obj given)) (.obj result) := by
  intro path old hold
  cases path with
  | nil => exact absurd (Option.some.inj hold).symm amountValue_ne_obj
  | cons key path =>
    rw [Value.at?_obj_cons, Option.bind_eq_some_iff] at hold
    obtain ⟨under, hunder, hold⟩ := hold
    obtain ⟨after, hafter, hfollows⟩ := h (key, under) (mem_of_field? hunder)
    obtain ⟨new, hnew, hnamed, hleft⟩ := hfollows path old hold
    refine ⟨new, ?_, hnamed, hleft⟩
    rw [Value.at?_obj_cons, hafter]
    exact hnew

theorem Follows.of_empty (h : Follows kinds (.obj base) (some (.obj [])) v) :
    Follows kinds (.obj base) none v := by
  intro path old hold
  obtain ⟨new, hnew, -, hleft⟩ := h path old hold
  refine ⟨new, hnew, by simp, fun _ => hleft ?_⟩
  cases path with
  | nil => exact absurd (Option.some.inj hold).symm amountValue_ne_obj
  | cons key path => rfl

/-! ### Laying an overlay over a document -/

def laid (under : Value) : Option Value → Value
  | none => under
  | some v => overlayValue (some under) v

@[simp]
theorem laid_amountValue (overlay : Option Value) :
    laid (amountValue a) overlay = overlay.getD (amountValue a) := by
  cases overlay with
  | none => rfl
  | some v => cases v <;> cases a <;> rfl

@[simp]
theorem laid_obj (base given : Fields) :
    laid (.obj base) (some (.obj given)) = .obj (overlayFields base given) := by
  simp [laid, overlayValue]

theorem laid_eq_obj (h : laid (.obj base) overlay = .obj result) :
    ∃ given, (overlay = some (.obj given) ∨ overlay = none ∧ given = []) ∧
      result = overlayFields base given := by
  cases overlay with
  | none =>
    refine ⟨[], Or.inr ⟨rfl, rfl⟩, ?_⟩
    simpa [laid, overlayFields] using h.symm
  | some v =>
    cases v with
    | obj given =>
      refine ⟨given, Or.inl rfl, ?_⟩
      simpa using h.symm
    | null | bool | int | real | str | arr => simp [laid, overlayValue] at h

theorem laid_none (base : Fields) :
    laid (.obj base) none = laid (.obj base) (some (.obj [])) := by
  rw [laid_obj]
  simp [laid, overlayFields]

/-- What is laid over an object is merged into it, or stands in place of it. -/
theorem laid_obj_cases (base : Fields)
    (hkeyed : ∀ v, overlay = some v → v.Keyed) :
    (∃ given, (Value.obj given).Keyed ∧
      laid (.obj base) overlay = .obj (overlayFields base given)) ∨
    ∀ fields, laid (.obj base) overlay ≠ .obj fields := by
  cases overlay with
  | none => exact Or.inl ⟨[], Value.keyed_empty, by rw [laid_none, laid_obj]⟩
  | some v =>
    cases v with
    | obj given => exact Or.inl ⟨given, hkeyed _ rfl, laid_obj base given⟩
    | null | bool | int | real | str | arr => exact Or.inr (by simp [laid, overlayValue])

/-- The merged object has at each key what is laid over the value of the key. -/
theorem field?_overlayFields (hgiven : (given.map Prod.fst).Nodup) (hv : field? base key = some v) :
    field? (overlayFields base given) key = some (laid v (field? given key)) := by
  induction given generalizing base v with
  | nil => simpa [overlayFields, laid, field?] using hv
  | cons first rest ih =>
    obtain ⟨hfirst, hrest⟩ := List.nodup_cons.mp hgiven
    unfold overlayFields overlayField
    by_cases hkey : first.1 = key
    · -- no later field has this key, so what is written here stays
      subst hkey
      rw [ih hrest (field?_setField_self ..), field?_eq_none_iff.mpr hfirst, hv]
      simp [field?, laid]
    · rw [ih hrest ((field?_setField_of_ne _ _ (Ne.symm hkey)).trans hv)]
      simp [field?, hkey]

theorem mem_keys_setField {other : String} : other ∈ (setField base key v).map Prod.fst ↔
    other = key ∨ other ∈ base.map Prod.fst := by
  by_cases hother : other = key
  · subst hother
    simp only [true_or, iff_true]
    exact mem_keys_of_field? (field?_setField_self ..)
  · rw [← isSome_field?_iff, field?_setField_of_ne _ _ hother, isSome_field?_iff]
    simp [hother]

theorem mem_keys_overlayFields : key ∈ (overlayFields base given).map Prod.fst ↔
    key ∈ base.map Prod.fst ∨ key ∈ given.map Prod.fst := by
  induction given generalizing base with
  | nil => simp [overlayFields]
  | cons first rest ih =>
    unfold overlayFields overlayField
    rw [ih, mem_keys_setField, List.map_cons, List.mem_cons]
    tauto

end AuditHours.Weights
