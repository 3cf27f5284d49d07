import AuditHours.Proofs.Number.HalfEven
import AuditHours.Proofs.Number.Numeral
import AuditHours.Proofs.Weights.Exact
import AuditHours.Report.Hours
import Mathlib.Data.Nat.Cast.Field

/-!
Hours as text. Whole or not, a number of hours is rounded to hundredths and written without the
zeros behind its point, which for a whole number leaves nothing behind it and no point. So the text
is that of a whole number of hundredths, which is nearest to the exact value and does not fall where
the value grows.
-/
namespace AuditHours

open Number

namespace Number

/-- The quotient of a magnitude is its exact value. -/
theorem magnitude_rational (mantissa : Nat) (exponent : Int) :
    0 < (magnitude mantissa exponent).2 ∧ (mantissa : ℚ) * 2 ^ exponent =
      (magnitude mantissa exponent).1 / (magnitude mantissa exponent).2 := by
  refine ⟨Nat.pow_pos (by decide), ?_⟩
  rcases le_total 0 exponent with hsign | hsign
  · obtain ⟨n, rfl⟩ := Int.eq_ofNat_of_zero_le hsign
    simp [magnitude]
  · obtain ⟨n, rfl⟩ := Int.exists_eq_neg_ofNat hsign
    simp [magnitude, div_eq_mul_inv]

def DecimalLiteral.rational (d : DecimalLiteral) : ℚ :=
  (if d.negative then -(ofDigits d.digits : ℚ) else ofDigits d.digits) * 10 ^ d.scale

def decimalValue? (text : String) : Option ℚ :=
  (decimalLiteral? text.toList).map DecimalLiteral.rational

namespace Numeral

/-- A whole part without needless zeros in front, and behind a point one or two digits or none, the
last of which is not zero. -/
structure IsHours (t : Numeral) : Prop extends Formed t where
  unsigned : t.negative = false
  unscaled : t.exponent = none
  places : ∀ digits, t.fraction = some digits → digits.length ≤ 2 ∧ digits.getLast? ≠ some '0'

/-- The digits of a number of hundredths below one, without zeros at the end. -/
def placeDigits (hundredths : Nat) : Option (List Char) :=
  if hundredths = 0 then none
  else if hundredths % 10 = 0 then some [Nat.digitChar (hundredths / 10)]
  else some [Nat.digitChar (hundredths / 10), Nat.digitChar (hundredths % 10)]

def ofHundredths (k : Nat) : Numeral :=
  ⟨false, digitChars (k / 100), placeDigits (k % 100), none⟩

end Numeral

/-- What the digit of a number below ten is. -/
theorem digitChar_spec {d : Nat} (hd : d < 10) : (Nat.digitChar d).isDigit = true ∧
    digitValue (Nat.digitChar d) = d ∧ (d ≠ 0 → Nat.digitChar d ≠ '0') := by
  revert d
  decide

theorem ofDigits_concat (digits : List Nat) (d : Nat) :
    ofDigits (digits ++ [d]) = ofDigits digits * 10 + d := by
  simp [ofDigits]

namespace Numeral

theorem isHours_ofHundredths (k : Nat) : (ofHundredths k).IsHours := by
  have htens := digitChar_spec (show k % 100 / 10 < 10 by omega)
  have hones := digitChar_spec (show k % 100 % 10 < 10 by omega)
  have hplaces : ∀ digits, placeDigits (k % 100) = some digits →
      DigitRow digits ∧ digits.length ≤ 2 ∧ digits.getLast? ≠ some '0' := by
    intro digits hdigits
    unfold placeDigits at hdigits
    split at hdigits
    · simp at hdigits
    · next hany =>
      split at hdigits
      · obtain rfl := Option.some.inj hdigits
        exact ⟨⟨by simp, by simp; omega⟩, by simp, by simpa using htens.2.2 (by omega)⟩
      · next hlast =>
        obtain rfl := Option.some.inj hdigits
        exact ⟨⟨by simp, by simp; omega⟩, by simp, by simpa using hones.2.2 hlast⟩
  exact {
    whole := digitRow_digitChars _
    lead := lead_digitChars _
    fraction := fun digits hdigits => (hplaces digits hdigits).1
    exponent := nofun
    unsigned := rfl
    unscaled := rfl
    places := fun digits hdigits => (hplaces digits hdigits).2 }

theorem rational_ofHundredths (k : Nat) : (ofHundredths k).literal.rational = k / 100 := by
  have htens := (digitChar_spec (show k % 100 / 10 < 10 by omega)).2.1
  have hones := (digitChar_spec (show k % 10 < 10 by omega)).2.1
  have hwhole := ofDigits_digitChars (k / 100)
  have hone : ofDigits ((digitChars (k / 100)).map digitValue ++ [k % 100 / 10]) = k / 10 := by
    rw [ofDigits_concat, hwhole]
    omega
  have htwo : ofDigits ((digitChars (k / 100)).map digitValue ++ [k % 100 / 10, k % 10]) = k := by
    rw [List.append_cons, ofDigits_concat, hone]
    omega
  unfold ofHundredths placeDigits
  split
  · next hnone =>
    have hk : (k : ℚ) = (k / 100 : Nat) * 100 := by exact_mod_cast (by omega : k = k / 100 * 100)
    rw [hk]
    simp [DecimalLiteral.rational, literal, places, scale, hwhole]
  · split
    · next hlast =>
      have hk : (k : ℚ) = (k / 10 : Nat) * 10 := by exact_mod_cast (by omega : k = k / 10 * 10)
      simp only [DecimalLiteral.rational, literal, places, scale, Option.getD_some, List.map_cons,
        List.map_nil, htens, hone]
      norm_num
      linarith
    · simp only [DecimalLiteral.rational, literal, places, scale, Option.getD_some, List.map_cons,
        List.map_nil, htens, Nat.mod_mod_of_dvd k (by decide : 10 ∣ 100), hones, htwo]
      norm_num
      ring

end Numeral

end Number

namespace Report

section

variable {c : Char}

theorem trimZeros_zero (cs : List Char) : trimZeros (cs ++ ['0']) = trimZeros cs := by
  simp [trimZeros]

theorem trimZeros_digit (cs : List Char) (hc : c.isDigit = true) (hzero : c ≠ '0') :
    trimZeros (cs ++ [c]) = cs ++ [c] := by
  have hpoint : c ≠ '.' := ne_of_isDigit hc (by decide)
  simp [trimZeros, hzero, hpoint]

/-- A point at the end is dropped alone: the zeros in front of it stay. -/
theorem trimZeros_point {digits : List Char} (h : DigitRow digits) :
    trimZeros (digits ++ ['.']) = digits := by
  have hrest : digits.reverse.dropWhile (· == '.') = digits.reverse := by
    cases hreverse : digits.reverse with
    | nil => rfl
    | cons c more =>
      have hc : c ∈ digits := List.mem_reverse.mp (hreverse ▸ List.mem_cons_self ..)
      have hpoint : c ≠ '.' := ne_of_isDigit (h.all c hc) (by decide)
      simp [hpoint]
  simp [trimZeros, hrest]

end

/-- A number of hundredths with its point and both places. -/
theorem withPoint_two (k : Nat) : withPoint k 2 = digitChars (k / 100) ++ ['.'] ++
    [Nat.digitChar (k % 100 / 10)] ++ [Nat.digitChar (k % 100 % 10)] := by
  have hplaces : ∀ f < 100, zeros (2 - (digitChars f).length) ++ digitChars f =
      [Nat.digitChar (f / 10), Nat.digitChar (f % 10)] := by
    decide +kernel
  have hk := hplaces (k % 100) (Nat.mod_lt k (by decide))
  have hpower : Nat.pow 10 2 = 100 := rfl
  unfold withPoint
  rw [if_neg (by decide)]
  simp only [hpower]
  rw [List.append_assoc, List.cons_append, hk]
  simp

/-- Without needless zeros. -/
theorem trimZeros_withPoint (k : Nat) :
    trimZeros (withPoint k 2) = (Numeral.ofHundredths k).chars := by
  have htens := digitChar_spec (show k % 100 / 10 < 10 by omega)
  have hones := digitChar_spec (show k % 100 % 10 < 10 by omega)
  rw [withPoint_two]
  by_cases hlast : k % 100 % 10 = 0
  · rw [hlast, show Nat.digitChar 0 = '0' from rfl, trimZeros_zero]
    by_cases hfirst : k % 100 / 10 = 0
    · have hnone : Numeral.placeDigits (k % 100) = none := if_pos (by omega)
      rw [hfirst, show Nat.digitChar 0 = '0' from rfl, trimZeros_zero,
        trimZeros_point (digitRow_digitChars _)]
      simp [Numeral.ofHundredths, Numeral.chars, hnone, signChars, Numeral.fractionChars,
        Numeral.exponentChars]
    · have hone : Numeral.placeDigits (k % 100) = some [Nat.digitChar (k % 100 / 10)] := by
        rw [Numeral.placeDigits, if_neg (by omega), if_pos hlast]
      rw [trimZeros_digit _ htens.1 (htens.2.2 hfirst)]
      simp [Numeral.ofHundredths, Numeral.chars, hone, signChars, Numeral.fractionChars,
        Numeral.exponentChars]
  · have htwo : Numeral.placeDigits (k % 100) =
        some [Nat.digitChar (k % 100 / 10), Nat.digitChar (k % 100 % 10)] := by
      rw [Numeral.placeDigits, if_neg (by omega), if_neg hlast]
    rw [trimZeros_digit _ hones.1 (hones.2.2 hlast)]
    simp [Numeral.ofHundredths, Numeral.chars, htwo, signChars, Numeral.fractionChars,
      Numeral.exponentChars]

theorem toList_intText_natCast (n : Nat) :
    (intText n).toList = (Numeral.ofHundredths (n * 100)).chars := by
  have hnone : Numeral.placeDigits (n * 100 % 100) = none := if_pos (by omega)
  have hwhole : n * 100 / 100 = n := by omega
  have hsign : decide ((n : Int) < 0) = false := decide_eq_false (by omega)
  rw [Numeral.toList_intText, Numeral.ofInt, Numeral.ofHundredths, hnone, hwhole, hsign,
    Int.natAbs_natCast]

section

variable {x : Float} {mantissa : Nat} {exponent : Int}

/-- The text of a number that is not whole is that of its rounded hundredths. -/
theorem toList_hoursText (hparts : parts x = .finite false mantissa exponent)
    (hwhole : (parts x).toInt? = none) : (hoursText x).toList = (Numeral.ofHundredths
      (roundHalfEven ((magnitude mantissa exponent).1 * 100) (magnitude mantissa exponent).2)).chars := by
  rw [hoursText, hwhole, ← trimZeros_withPoint]
  simp [fixedText, hparts, signChars]

/-- The exact value of a number of at least zero is the quotient of its magnitude, also where the
number is a negative zero. -/
theorem quotient_of_nonneg {negative : Bool} {v : ℚ}
    (hparts : parts x = .finite negative mantissa exponent)
    (hx : (parts x).rational? = some v) (hv : 0 ≤ v) :
    v = (magnitude mantissa exponent).1 / (magnitude mantissa exponent).2 ∧
      (negative = true → (magnitude mantissa exponent).1 = 0) := by
  rw [hparts] at hx
  obtain rfl := Option.some.inj hx
  rw [← (magnitude_rational mantissa exponent).2]
  cases negative with
  | false => simp
  | true =>
    have hpower : (0 : ℚ) < 2 ^ exponent := by positivity
    have hmantissa : (0 : ℚ) ≤ -(mantissa : ℚ) := nonneg_of_mul_nonneg_left hv hpower
    have hzero : mantissa = 0 := by
      have hle : (mantissa : ℚ) ≤ 0 := by linarith
      exact Nat.le_zero.mp (by exact_mod_cast hle)
    subst hzero
    simp [magnitude]

theorem toInt?_of_nonneg {negative : Bool} (hparts : parts x = .finite negative mantissa exponent)
    (hnegative : negative = true → (magnitude mantissa exponent).1 = 0) : (parts x).toInt? =
      if (magnitude mantissa exponent).1 % (magnitude mantissa exponent).2 = 0 then
        some (((magnitude mantissa exponent).1 / (magnitude mantissa exponent).2 : Nat) : Int)
      else none := by
  rw [hparts, Parts.toInt?]
  cases negative with
  | false => rfl
  | true => simp [hnegative rfl]

/-- A number of hours of at least zero is printed as its hundredths, rounded. -/
theorem exists_hundredths {v : ℚ} (hx : (parts x).rational? = some v) (hv : 0 ≤ v) :
    ∃ k : Nat, RoundsTo (v * 100) k ∧
      (hoursText x).toList = (Numeral.ofHundredths k).chars := by
  cases hparts : parts x with
  | nan | infinite negative => simp [hparts, Parts.rational?] at hx
  | finite negative mantissa exponent =>
    obtain ⟨rfl, hnegative⟩ := quotient_of_nonneg hparts hx hv
    have hden := (magnitude_rational mantissa exponent).1
    have hint := toInt?_of_nonneg hparts hnegative
    have htext := @toList_hoursText x mantissa exponent
    generalize (magnitude mantissa exponent).1 = num at *
    generalize (magnitude mantissa exponent).2 = den at *
    by_cases hwhole : num % den = 0
    · rw [if_pos hwhole] at hint
      refine ⟨num / den * 100, ?_, ?_⟩
      · have hquotient : (num : ℚ) / den = (num / den : Nat) :=
          (Nat.cast_div_charZero (Nat.dvd_of_mod_eq_zero hwhole)).symm
        rw [hquotient]
        exact_mod_cast RoundsTo.of_whole (num / den * 100 : Nat)
      · rw [hoursText, hint]
        exact toList_intText_natCast _
    · rw [if_neg hwhole] at hint
      have hpositive : negative = false := by
        cases negative with
        | false => rfl
        | true => exact absurd (by simp [hnegative rfl]) hwhole
      subst hpositive
      refine ⟨roundHalfEven (num * 100) den, ?_, htext hparts hint⟩
      have hrounds := roundsTo_roundHalfEven (num * 100) hden
      rw [div_mul_eq_mul_div]
      exact_mod_cast hrounds

end

/-! ### The text of hours -/

/-- What a number of hours of at least zero is printed as. -/
structure HoursPrinted (x : Float) (v : ℚ) (text : String) : Prop where
  returned : hours (.real x) = .ok text
  form : ∃ t : Numeral, t.IsHours ∧ text.toList = t.chars
  whole : ∀ n : ℤ, v = n → decimalValue? text = some v
  /-- A number is printed as the nearest number of hundredths, half way as the even one. -/
  nearest : ∃ k : ℤ, decimalValue? text = some ((k : ℚ) / 100) ∧ NearestHundredth v k
  mono : ∀ (y : Float) (w : ℚ), (parts y).rational? = some w → v ≤ w → ∃ (more : String) (p q : ℚ),
    hours (.real y) = .ok more ∧ decimalValue? text = some p ∧ decimalValue? more = some q ∧ p ≤ q

/-- What the text of a number of hundredths is read as. -/
theorem decimalValue?_ofHundredths {text : String} {k : Nat}
    (h : text.toList = (Numeral.ofHundredths k).chars) :
    decimalValue? text = some ((k : ℚ) / 100) := by
  rw [decimalValue?, h,
    Numeral.decimalLiteral?_chars (Numeral.isHours_ofHundredths k).toFormed, Option.map_some,
    Numeral.rational_ofHundredths]

/-- Finite hours of at least zero are printed in one form, rounded to hundredths and in order. -/
theorem hours_printed {x : Float} {v : ℚ} (hx : (parts x).rational? = some v) (hv : 0 ≤ v) :
    HoursPrinted x v (hoursText x) := by
  obtain ⟨k, hrounds, htext⟩ := exists_hundredths hx hv
  have hvalue := decimalValue?_ofHundredths htext
  refine ⟨rfl, ⟨_, Numeral.isHours_ofHundredths k, htext⟩, ?_, ⟨k, ?_, hrounds.nearestHundredth⟩, ?_⟩
  · rintro n rfl
    have hscaled : ((n : ℚ) * 100) = ((n * 100 : ℤ) : ℚ) := by push_cast; rfl
    have hk : (k : ℤ) = n * 100 := hrounds.unique (hscaled ▸ RoundsTo.of_whole (n * 100))
    have hcast : (k : ℚ) = n * 100 := by exact_mod_cast hk
    rw [hvalue, hcast, mul_div_cancel_right₀ _ (by norm_num)]
  · rw [Int.cast_natCast]
    exact hvalue
  · intro y w hy hle
    obtain ⟨l, hrounds', htext'⟩ := exists_hundredths hy (hv.trans hle)
    have hkl : (k : ℤ) ≤ l := hrounds.mono hrounds' (by linarith)
    have hcast : (k : ℚ) ≤ l := by exact_mod_cast hkl
    exact ⟨hoursText y, k / 100, l / 100, rfl, hvalue, decimalValue?_ofHundredths htext',
      by linarith⟩

/-- The zeros of a number that is rounded to a whole one are dropped up to its point, and those of
the whole part stay. -/
theorem hours_printed_above_ten :
    (parts 10.001).rational? = some (5630062484166541 * 2 ^ (-49 : ℤ)) ∧
    (0 : ℚ) ≤ 5630062484166541 * 2 ^ (-49 : ℤ) ∧ hoursText 10.001 = "10" ∧
    HoursPrinted 10.001 (5630062484166541 * 2 ^ (-49 : ℤ)) "10" := by
  have hparts : parts 10.001 = .finite false 5630062484166541 (-49) := by decide +kernel
  have hx : (parts 10.001).rational? = some (5630062484166541 * 2 ^ (-49 : ℤ)) := by
    rw [hparts]
    simp [Parts.rational?]
  have hv : (0 : ℚ) ≤ 5630062484166541 * 2 ^ (-49 : ℤ) := by positivity
  have htext : hoursText 10.001 = "10" := by decide +kernel
  exact ⟨hx, hv, htext, htext ▸ hours_printed hx hv⟩

/-- Half way between two numbers of hundredths the even one is printed. -/
example : hoursText 0.125 = "0.12" := by
  decide +kernel

end Report

end AuditHours
