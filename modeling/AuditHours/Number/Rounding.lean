/-!
Rounding of a quotient to the nearest whole number. A quotient half way between two whole numbers
goes to the even one.
-/
namespace AuditHours.Number

/-- The whole number nearest to `num / den`; a half goes to the even neighbour. -/
def roundHalfEven (num den : Nat) : Nat :=
  let below := num / den
  let rest := num % den
  if 2 * rest < den then below
  else if den < 2 * rest then below + 1
  else if below % 2 = 0 then below else below + 1

/-- The result is within half a unit of the quotient. -/
theorem roundHalfEven_within (num den : Nat) (h : 0 < den) :
    2 * num ≤ (2 * roundHalfEven num den + 1) * den ∧
      2 * roundHalfEven num den * den ≤ 2 * num + den := by
  have hdiv : den * (num / den) + num % den = num := Nat.div_add_mod num den
  have hlt : num % den < den := Nat.mod_lt num h
  generalize num / den = q at *
  generalize num % den = r at *
  subst hdiv
  have e1 : (2 * q + 1) * den = 2 * (den * q) + den := by
    rw [Nat.add_mul, Nat.one_mul, Nat.mul_assoc, Nat.mul_comm q den]
  have e2 : 2 * q * den = 2 * (den * q) := by rw [Nat.mul_assoc, Nat.mul_comm q den]
  have e3 : (2 * (q + 1) + 1) * den = 2 * (den * q) + 3 * den := by
    rw [show 2 * (q + 1) + 1 = 2 * q + 3 by omega, Nat.add_mul, e2]
  have e4 : 2 * (q + 1) * den = 2 * (den * q) + 2 * den := by
    rw [show 2 * (q + 1) = 2 * q + 2 by omega, Nat.add_mul, e2]
  unfold roundHalfEven
  have hq : (den * q + r) / den = q := by
    rw [Nat.mul_add_div h, Nat.div_eq_of_lt hlt, Nat.add_zero]
  have hr : (den * q + r) % den = r := by rw [Nat.mul_add_mod, Nat.mod_eq_of_lt hlt]
  simp only [hq, hr]
  split
  · rw [e1, e2]; omega
  · split
    · rw [e3, e4]; omega
    · split
      · rw [e1, e2]; omega
      · rw [e3, e4]; omega

end AuditHours.Number
