import AuditHours.Proofs.Validation.Acceptance

/-!
What a check reports. A scalar that is refused reports the reason of its reader, and nothing else. A
group reports what its fields do and then its unknown keys; what is no object is one violation.
Violations that are found in a part of a document stand below the keys that lead there.
-/
namespace AuditHours.Validation

open Json

def Violation.under (location : List String) (v : Violation) : Violation :=
  ⟨location ++ v.location, v.reason⟩

@[simp]
theorem Violation.under_under (location rest : List String) (v : Violation) :
    (v.under rest).under location = v.under (location ++ rest) := by
  simp [under, List.append_assoc]

variable {α : Type} {location : List String} {v : Value} {x : α} {reason : Reason}
  {read : Value → Except Reason α}

theorem inRange_eq_error {holds : α → Bool} {refusal : Reason} :
    inRange holds refusal x = .error reason ↔ holds x = false ∧ refusal = reason := by
  unfold inRange
  split
  · next hholds => simp [hholds]
  · next hrefused => simp [eq_false_of_ne_true hrefused]

/-- Where a value is read and its range is checked, one of the two refuses it. -/
theorem read_inRange_eq_error {read : Except Reason α} {holds : α → Bool} {refusal : Reason} :
    (do inRange holds refusal (← read)) = .error reason ↔
      read = .error reason ∨ ∃ x, read = .ok x ∧ holds x = false ∧ refusal = reason := by
  cases read <;> simp [bind, Except.bind, inRange_eq_error]

theorem violations_scalar_of_ok (h : read v = .ok x) :
    (scalar read location v).violations = [] := by
  simp [scalar, h, Checked.violations]

theorem violations_scalar_of_error (h : read v = .error reason) :
    (scalar read location v).violations = [⟨location, reason⟩] := by
  simp [scalar, h, Checked.violations]

theorem violations_eq_nil_iff {c : Checked α} : c.violations = [] ↔ c.Succeeds := by
  cases c <;> simp [Checked.violations, Checked.Succeeds]

/-- A rule is not looked at where something is wrong already. -/
theorem violations_ensure_of_ne_nil {c : Checked α} {holds : α → Bool} {violation : α → Violation}
    (h : c.violations ≠ []) : (c.ensure holds violation).violations = c.violations := by
  cases c with
  | valid x => exact absurd rfl h
  | invalid first more => rfl

section

variable {name : String} {keys : List Key} {readFields : List String → Fields → Checked α}

theorem violations_group_obj (fields : Fields) :
    (group name keys readFields location (.obj fields)).violations =
      (readFields location fields).violations ++
        (unknownKeys keys fields).map fun key => ⟨location ++ [key], .unknownKey⟩ := by
  simp [group]

theorem violations_group_of_ne_obj (h : ∀ fields, v ≠ .obj fields) :
    (group name keys readFields location v).violations = [⟨location, .notGroup name⟩] := by
  cases v with
  | obj fields => exact absurd rfl (h fields)
  | null | bool | int | real | str | arr => rfl

end

end AuditHours.Validation
