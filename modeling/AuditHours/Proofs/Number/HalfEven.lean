import AuditHours.Number.Rounding
import Mathlib.Algebra.Order.Field.Basic
import Mathlib.Algebra.Order.Field.Rat
import Mathlib.Tactic.LinearCombination
import Mathlib.Tactic.Linarith
import Mathlib.Tactic.Ring

/-!
Rounding to the even neighbour. The rounded quotient is within half a unit of the exact one, and
even where it is exactly half a unit away. So no whole number is nearer, a whole quotient stays as
it is, and a larger quotient is not rounded to less.
-/
namespace AuditHours.Number

/-- A whole number within half a unit of a rational one, even if it is half a unit away. -/
structure RoundsTo (q : ℚ) (k : ℤ) : Prop where
  within : |q - k| ≤ 1 / 2
  even : |q - k| = 1 / 2 → Even k

namespace RoundsTo

variable {q r : ℚ} {k l : ℤ}

theorem of_whole (k : ℤ) : RoundsTo k k := by
  refine ⟨?_, ?_⟩
  · simp
  · intro h
    norm_num at h

/-- Other whole numbers are half a unit away or further. -/
theorem half_le (h : RoundsTo q k) {j : ℤ} (hj : j ≠ k) : 1 / 2 ≤ |q - j| := by
  have hgap : (1 : ℚ) ≤ |(k : ℚ) - j| := by
    have hne : (1 : ℤ) ≤ |k - j| := Int.one_le_abs (sub_ne_zero.mpr hj.symm)
    exact_mod_cast hne
  have htriangle : |(k : ℚ) - j| ≤ |q - k| + |q - j| := by
    rw [abs_sub_comm q k]
    exact abs_sub_le _ _ _
  have hwithin := h.within
  linarith

theorem nearest (h : RoundsTo q k) (j : ℤ) : |q - k| ≤ |q - j| := by
  by_cases hj : j = k
  · rw [hj]
  · exact h.within.trans (h.half_le hj)

theorem even_of_tie (h : RoundsTo q k) {j : ℤ} (hj : j ≠ k) (htie : |q - j| = |q - k|) :
    Even k :=
  h.even (le_antisymm h.within (htie ▸ h.half_le hj))

/-- A larger number is not rounded to less. -/
theorem mono (h : RoundsTo q k) (h' : RoundsTo r l) (hle : q ≤ r) : k ≤ l := by
  by_contra hlt
  have hstep : l + 1 ≤ k := by omega
  have hgap : (l : ℚ) + 1 ≤ k := by exact_mod_cast hstep
  have hlow := (abs_le.mp h.within).1
  have hhigh := (abs_le.mp h'.within).2
  -- both lie half way between neighbours, of which only one is even
  have hnext : k = l + 1 := by
    have hclose : (k : ℚ) ≤ l + 1 := by linarith
    have hclose' : k ≤ l + 1 := by exact_mod_cast hclose
    omega
  have hcast : (k : ℚ) = l + 1 := by exact_mod_cast hnext
  have hq : q - k = -(1 / 2) := by linarith
  have hr : r - l = 1 / 2 := by linarith
  have hk : Even k := h.even (by rw [hq, abs_neg, abs_of_nonneg (by norm_num)])
  have hl : Even l := h'.even (by rw [hr, abs_of_nonneg (by norm_num)])
  rw [hnext] at hk
  exact absurd hk (Int.not_even_iff_odd.mpr hl.add_one)

theorem unique (h : RoundsTo q k) (h' : RoundsTo q l) : k = l :=
  le_antisymm (h.mono h' le_rfl) (h'.mono h le_rfl)

end RoundsTo

section

variable {num den : Nat}

/-- Half way between two whole numbers the even one is taken. -/
theorem even_roundHalfEven (hden : 0 < den)
    (htie : 2 * num = (2 * roundHalfEven num den + 1) * den ∨
      2 * num + den = 2 * roundHalfEven num den * den) : Even (roundHalfEven num den) := by
  have hdiv : den * (num / den) + num % den = num := Nat.div_add_mod num den
  have hlt : num % den < den := Nat.mod_lt num hden
  unfold roundHalfEven at htie ⊢
  simp only [] at htie ⊢
  generalize num / den = below at *
  generalize num % den = rest at *
  subst hdiv
  have hsame : (2 * below + 1) * den = 2 * (den * below) + den ∧
      2 * below * den = 2 * (den * below) := ⟨by ring, by ring⟩
  have hnext : (2 * (below + 1) + 1) * den = 2 * (den * below) + 3 * den ∧
      2 * (below + 1) * den = 2 * (den * below) + 2 * den := ⟨by ring, by ring⟩
  split at htie
  · rw [hsame.1, hsame.2] at htie
    omega
  · split at htie
    · rw [hnext.1, hnext.2] at htie
      omega
    · rw [if_neg (by omega), if_neg (by omega)]
      split
      · next heven => exact Nat.even_iff.mpr heven
      · next hodd => exact Nat.even_iff.mpr (by omega)

/-- A quotient is rounded to the nearest whole number, half way to the even one. -/
theorem roundsTo_roundHalfEven (num : Nat) (hden : 0 < den) :
    RoundsTo ((num : ℚ) / den) (roundHalfEven num den) := by
  have hpos : (0 : ℚ) < den := by exact_mod_cast hden
  have hnum : (num : ℚ) = num / den * den := (div_mul_cancel₀ _ hpos.ne').symm
  have hwithin := roundHalfEven_within num den hden
  have heven := @even_roundHalfEven num den hden
  generalize roundHalfEven num den = k at hwithin heven
  -- the bounds and the ties of the whole numbers, with the denominator cancelled
  have hlow : 2 * ((num : ℚ) / den) * den ≤ (2 * k + 1) * den := by
    rw [mul_assoc, ← hnum]
    exact_mod_cast hwithin.1
  have hhigh : 2 * (k : ℚ) * den ≤ (2 * (num / den) + 1) * den := by
    rw [add_mul, mul_assoc 2 ((num : ℚ) / den), ← hnum, one_mul]
    exact_mod_cast hwithin.2
  have htieLow : (num : ℚ) / den - k = 1 / 2 → 2 * num = (2 * k + 1) * den := by
    intro h
    have hcast : 2 * (num : ℚ) = (2 * k + 1) * den := by
      rw [hnum, ← mul_assoc]
      congr 1
      linarith
    exact_mod_cast hcast
  have htieHigh : (num : ℚ) / den - k = -(1 / 2) → 2 * num + den = 2 * k * den := by
    intro h
    have hk : (k : ℚ) = num / den + 1 / 2 := by linarith
    have hcast : 2 * (num : ℚ) + den = 2 * k * den := by
      rw [hk]
      linear_combination 2 * hnum
    exact_mod_cast hcast
  have hlow' := le_of_mul_le_mul_right hlow hpos
  have hhigh' := le_of_mul_le_mul_right hhigh hpos
  refine ⟨?_, ?_⟩
  · rw [abs_le]
    push_cast
    constructor <;> linarith
  · intro htie
    push_cast at htie
    rw [Int.even_coe_nat]
    rcases (abs_eq (by norm_num)).mp htie with htie | htie
    · exact heven (Or.inl (htieLow htie))
    · exact heven (Or.inr (htieHigh htie))

end

/-- A whole number of hundredths that none is nearer than to a rational number, the even one of two
that are as near. -/
structure NearestHundredth (q : ℚ) (k : ℤ) : Prop where
  nearest : ∀ j : ℤ, |q - k / 100| ≤ |q - j / 100|
  even : ∀ j : ℤ, j ≠ k → |q - j / 100| = |q - k / 100| → Even k

theorem RoundsTo.nearestHundredth {q : ℚ} {k : ℤ} (h : RoundsTo (q * 100) k) :
    NearestHundredth q k := by
  have hscale : ∀ j : ℤ, |q - j / 100| = |q * 100 - j| / 100 := by
    intro j
    have hpos : (0 : ℚ) < 100 := by norm_num
    rw [show q - j / 100 = (q * 100 - j) / 100 by ring, abs_div, abs_of_pos hpos]
  refine ⟨fun j => ?_, fun j hj htie => ?_⟩
  · rw [hscale, hscale]
    exact div_le_div_of_nonneg_right (h.nearest j) (by norm_num)
  · rw [hscale, hscale] at htie
    exact h.even_of_tie hj (by linarith)

end AuditHours.Number
