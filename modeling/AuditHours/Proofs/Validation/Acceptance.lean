import AuditHours.Validation.Scalar

/-!
When a check succeeds. Checks that stand side by side succeed together, a scalar succeeds where its
reader does, and a group succeeds if it is an object, holds no unknown key, and its fields succeed.
-/
namespace AuditHours.Validation

open Json Number

variable {α β : Type} {c : Checked α} {x : α} {location : List String} {v : Value} {fields : Fields}

namespace Checked

def Succeeds (c : Checked α) : Prop := ∃ x, c = .valid x

@[simp]
theorem map_eq_valid {f : α → β} {y : β} : f <$> c = .valid y ↔ ∃ x, c = .valid x ∧ f x = y := by
  cases c <;> simp [Functor.map, map]

@[simp]
theorem seq_eq_valid {f : Checked (α → β)} {y : β} :
    f <*> c = .valid y ↔ ∃ g x, f = .valid g ∧ c = .valid x ∧ g x = y := by
  cases f <;> cases c <;> simp [Seq.seq, both, map]

@[simp]
theorem succeeds_map {f : α → β} : (f <$> c).Succeeds ↔ c.Succeeds := by
  cases c <;> simp [Succeeds]

@[simp]
theorem succeeds_seq {f : Checked (α → β)} : (f <*> c).Succeeds ↔ f.Succeeds ∧ c.Succeeds := by
  cases f <;> cases c <;> simp [Succeeds]

@[simp]
theorem ensure_eq_valid {holds : α → Bool} {violation : α → Violation} :
    c.ensure holds violation = .valid x ↔ c = .valid x ∧ holds x = true := by
  cases c with
  | valid value =>
    simp only [ensure, valid.injEq]
    split
    · next hholds => simpa using fun h => h ▸ hholds
    · next hrefused => simpa using fun h => h ▸ eq_false_of_ne_true hrefused
  | invalid first more => simp [ensure]

theorem also_eq_valid {found : List Violation} :
    c.also found = .valid x ↔ c = .valid x ∧ found = [] := by
  cases c <;> cases found <;> simp [also]

end Checked

theorem inRange_eq_ok {holds : α → Bool} {reason : Reason} {value : α} :
    inRange holds reason value = .ok x ↔ value = x ∧ holds x = true := by
  unfold inRange
  split
  · next hholds => simpa using fun h => h ▸ hholds
  · next hrefused => simpa using fun h => h ▸ eq_false_of_ne_true hrefused

/-- Where a value is read and its range is checked, both must succeed. -/
theorem read_inRange_eq_ok {read : Except Reason α} {holds : α → Bool} {reason : Reason} :
    (do inRange holds reason (← read)) = .ok x ↔ read = .ok x ∧ holds x = true := by
  cases read <;> simp [bind, Except.bind, inRange_eq_ok]

theorem bound_eq_ok {n : Int} : bound v = .ok n ↔ wholeNumber v = .ok n ∧ 0 < n := by
  unfold bound
  rw [read_inRange_eq_ok, decide_eq_true_iff]

theorem count_eq_ok {n : Int} : count v = .ok n ↔ wholeNumber v = .ok n ∧ 0 ≤ n := by
  unfold count
  rw [read_inRange_eq_ok, decide_eq_true_iff]

theorem weight_eq_ok {x : Float} :
    weight v = .ok x ↔ realNumber v = .ok x ∧ (parts x).isAtLeastZero = true :=
  read_inRange_eq_ok

@[simp]
theorem scalar_eq_valid {read : Value → Except Reason α} :
    scalar read location v = .valid x ↔ read v = .ok x := by
  unfold scalar
  cases read v <;> simp

theorem group_eq_valid {name : String} {keys : List Key}
    {read : List String → Fields → Checked α} :
    group name keys read location v = .valid x ↔
      ∃ fields, v = .obj fields ∧ read location fields = .valid x ∧
        unknownKeys keys fields = [] := by
  cases v <;> simp [group, Checked.also_eq_valid]

namespace Key

variable {key : Key} {default : α} {reader : List String → Value → Checked α}

theorem read_of_document (h : field? fields key.document = some v) :
    key.read fields location default reader = reader (location ++ [key.document]) v := by
  simp [read, find?, h]

theorem read_eq_valid (h : key.read fields location default reader = .valid x) :
    x = default ∨ ∃ location v, reader location v = .valid x := by
  unfold read at h
  split at h
  · next spelling v _ => exact Or.inr ⟨location ++ [spelling], v, h⟩
  · exact Or.inl (Checked.valid.inj h).symm

end Key

/-- Where all keys of a group are given in their document spelling, the others are unknown. -/
theorem unknownKeys_eq_filter {keys : List Key}
    (hall : ∀ key ∈ keys, (field? fields key.document).isSome = true) :
    unknownKeys keys fields =
      (fields.map Prod.fst).filter (! (keys.map Key.document).contains ·) := by
  have hknown : keys.filterMap (fun key => (key.find? fields).map Prod.fst) =
      keys.map Key.document := by
    induction keys with
    | nil => rfl
    | cons key rest ih =>
      obtain ⟨v, hv⟩ := Option.isSome_iff_exists.mp (hall key (List.mem_cons_self ..))
      rw [List.filterMap_cons, ih fun other hother => hall other (List.mem_cons_of_mem _ hother)]
      simp [Key.find?, hv]
  simp only [unknownKeys, hknown]

/-- Where all keys of a group are given in their document spelling, these are the known ones. -/
theorem unknownKeys_eq_nil {keys : List Key}
    (hall : ∀ key ∈ keys, (field? fields key.document).isSome = true) :
    unknownKeys keys fields = [] ↔
      ∀ name ∈ fields.map Prod.fst, name ∈ keys.map Key.document := by
  rw [unknownKeys_eq_filter hall]
  simp [List.filter_eq_nil_iff]

end AuditHours.Validation
