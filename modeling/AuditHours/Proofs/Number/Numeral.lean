import AuditHours.Number.Literal
import AuditHours.Number.Text
import Mathlib.Tactic.ByContra

/-!
Written numbers. A numeral is a sign, a row of digits, a point with a row of digits behind it and an
exponent, of which the last two may be missing. Every printed number is a numeral without needless
zeros in front, and the reader of literals takes a numeral apart into its parts.
-/
namespace AuditHours.Number

def NoDigit (rest : List Char) : Prop := ∀ c cs, rest = c :: cs → c.isDigit = false

structure DigitRow (digits : List Char) : Prop where
  ne_nil : digits ≠ []
  all : ∀ c ∈ digits, c.isDigit = true

def digitValue (c : Char) : Nat := c.toNat - 0x30

section

variable {digits rest : List Char} {c : Char} {cs : List Char} {n : Nat}

theorem noDigit_nil : NoDigit [] := nofun

theorem noDigit_cons (h : c.isDigit = false) : NoDigit (c :: cs) := by
  rintro d ds heq
  obtain ⟨rfl, rfl⟩ := List.cons.inj heq
  exact h

theorem ne_of_isDigit {d : Char} (hc : c.isDigit = true) (hd : d.isDigit = false) : c ≠ d := by
  rintro rfl
  simp [hc] at hd

theorem DigitRow.head (h : DigitRow digits) :
    ∃ c more, digits = c :: more ∧ c.isDigit = true := by
  obtain ⟨c, more, rfl⟩ := List.exists_cons_of_ne_nil h.ne_nil
  exact ⟨c, more, rfl, h.all c (List.mem_cons_self ..)⟩

/-- The digits at the beginning of a text are taken, and nothing else. -/
theorem spanDigits_append (hdigits : ∀ c ∈ digits, c.isDigit = true) (hrest : NoDigit rest) :
    spanDigits (digits ++ rest) = (digits.map digitValue, rest) := by
  have hstop : rest.takeWhile Char.isDigit = [] ∧ rest.dropWhile Char.isDigit = rest := by
    cases rest with
    | nil => exact ⟨rfl, rfl⟩
    | cons c cs => simp [hrest c cs rfl]
  have hvalues : digits.filterMap plainDigit? = digits.map digitValue := by
    clear hstop
    induction digits with
    | nil => rfl
    | cons c cs ih =>
      have hc : plainDigit? c = some (digitValue c) := by
        simp [plainDigit?, hdigits c (List.mem_cons_self ..), digitValue]
      rw [List.filterMap_cons_some hc, List.map_cons,
        ih fun other hother => hdigits other (List.mem_cons_of_mem _ hother)]
  unfold spanDigits
  rw [List.takeWhile_append_of_pos hdigits, List.dropWhile_append_of_pos hdigits, hstop.1, hstop.2,
    List.append_nil, hvalues]

/-- The digits of a number read back as the number. -/
theorem ofDigits_digitChars (n : Nat) : ofDigits ((digitChars n).map digitValue) = n := by
  have hfold : ofDigits ((digitChars n).map digitValue) = Nat.ofDigitChars 10 (digitChars n) 0 := by
    simp [ofDigits, Nat.ofDigitChars, List.foldl_map, digitValue, Nat.mul_comm]
  rw [hfold]
  exact Nat.ofDigitChars_ten_toDigits

theorem digitRow_digitChars (n : Nat) : DigitRow (digitChars n) :=
  ⟨Nat.toDigits_ne_nil, fun _ h => Nat.isDigit_of_mem_toDigits (by omega) (by omega) h⟩

/-- A number above zero does not start with a zero. -/
theorem head_digitChars (h : n ≠ 0) : ∃ c more, digitChars n = c :: more ∧ c ≠ '0' := by
  induction n using Nat.strongRecOn with
  | ind n ih =>
    unfold digitChars
    rw [Nat.toDigits_eq_if (by omega)]
    by_cases hsmall : n < 10
    · rw [if_pos hsmall]
      have hdigit : ∀ d < 10, d ≠ 0 → Nat.digitChar d ≠ '0' := by decide
      exact ⟨n.digitChar, [], rfl, hdigit n hsmall h⟩
    · rw [if_neg hsmall]
      obtain ⟨c, more, hmore, hc⟩ := ih (n / 10) (by omega) (by omega)
      exact ⟨c, more ++ [(n % 10).digitChar], by rw [← List.cons_append, ← hmore]; rfl, hc⟩

theorem isDigit_zeros (h : c ∈ zeros n) : c.isDigit = true := by
  rw [List.eq_of_mem_replicate h]
  decide

theorem digitRow_zero : DigitRow ['0'] := ⟨by simp, by simp⟩

theorem DigitRow.zeros_append (h : DigitRow digits) (n : Nat) : DigitRow (zeros n ++ digits) :=
  ⟨by simp [h.ne_nil], fun c hc => (List.mem_append.mp hc).elim isDigit_zeros (h.all c)⟩

theorem DigitRow.append_zeros (h : DigitRow digits) (n : Nat) : DigitRow (digits ++ zeros n) :=
  ⟨by simp [h.ne_nil], fun c hc => (List.mem_append.mp hc).elim (h.all c) isDigit_zeros⟩

end

/-- The parts of a written number. -/
structure Numeral where
  negative : Bool
  whole : List Char
  fraction : Option (List Char)
  exponent : Option (Bool × List Char)

namespace Numeral

def fractionChars : Option (List Char) → List Char
  | none => []
  | some digits => '.' :: digits

def exponentChars : Option (Bool × List Char) → List Char
  | none => []
  | some (negative, digits) => 'e' :: (if negative then '-' else '+') :: digits

def chars (t : Numeral) : List Char :=
  signChars t.negative ++ (t.whole ++ (fractionChars t.fraction ++ exponentChars t.exponent))

def places (t : Numeral) : List Nat := (t.fraction.getD []).map digitValue

def scale (t : Numeral) : Int :=
  (t.exponent.map fun (negative, digits) => signedValue negative (digits.map digitValue)).getD 0

def literal (t : Numeral) : DecimalLiteral :=
  ⟨t.negative, t.whole.map digitValue ++ t.places, t.scale - t.places.length⟩

/-- All rows hold a digit, and the first one starts with a zero only if it is that zero. -/
structure Formed (t : Numeral) : Prop where
  whole : DigitRow t.whole
  lead : ∀ more, t.whole = '0' :: more → more = []
  fraction : ∀ digits, t.fraction = some digits → DigitRow digits
  exponent : ∀ negative digits, t.exponent = some (negative, digits) → DigitRow digits

variable {t : Numeral}

theorem spanSign_signChars {negative : Bool} {c : Char} {cs : List Char} (hc : c.isDigit = true) :
    spanSign (signChars negative ++ c :: cs) = (negative, c :: cs) := by
  cases negative with
  | true => rfl
  | false =>
    have hminus : c ≠ '-' := ne_of_isDigit hc (by decide)
    have hplus : c ≠ '+' := ne_of_isDigit hc (by decide)
    simp [signChars, spanSign, hminus, hplus]

theorem noDigit_exponent (e : Option (Bool × List Char)) {rest : List Char} (h : NoDigit rest) :
    NoDigit (exponentChars e ++ rest) := by
  cases e with
  | none => exact h
  | some e => exact noDigit_cons (by decide)

theorem noDigit_fraction (f : Option (List Char)) {rest : List Char} (h : NoDigit rest) :
    NoDigit (fractionChars f ++ rest) := by
  cases f with
  | none => exact h
  | some digits => exact noDigit_cons (by decide)

theorem exponent?_exponentChars (e : Option (Bool × List Char))
    (h : ∀ negative digits, e = some (negative, digits) → DigitRow digits) :
    exponent? (exponentChars e) = some
      ((e.map fun (negative, digits) => signedValue negative (digits.map digitValue)).getD 0) := by
  rcases e with _ | ⟨negative, digits⟩
  · rfl
  · have hrow := h negative digits rfl
    have hspan := spanDigits_append hrow.all noDigit_nil
    rw [List.append_nil] at hspan
    have hsign : spanSign ((if negative then '-' else '+') :: digits) = (negative, digits) := by
      cases negative <;> rfl
    simp [exponentChars, exponent?, hsign, hspan, hrow.ne_nil, signedValue]

/-- The literal of a numeral is read from its text. -/
theorem decimalLiteral?_chars (h : t.Formed) : decimalLiteral? t.chars = some t.literal := by
  obtain ⟨c, more, hwhole, hc⟩ := h.whole.head
  have hsign : spanSign t.chars =
      (t.negative, t.whole ++ (fractionChars t.fraction ++ exponentChars t.exponent)) := by
    rw [chars, hwhole]
    exact spanSign_signChars hc
  have hend : NoDigit (exponentChars t.exponent) := by
    simpa using noDigit_exponent t.exponent noDigit_nil
  have hdigits := spanDigits_append h.whole.all (noDigit_fraction t.fraction hend)
  have hexponent := exponent?_exponentChars t.exponent h.exponent
  unfold decimalLiteral?
  rw [hsign]
  simp only [hdigits]
  cases hfraction : t.fraction with
  | none =>
    have hpoint : ∀ cs, exponentChars t.exponent ≠ '.' :: cs := by
      cases t.exponent <;> simp [exponentChars]
    simp [fractionChars, hexponent, h.whole.ne_nil, literal, places, scale, hfraction]
  | some digits =>
    have hspan := spanDigits_append (h.fraction digits hfraction).all hend
    simp [fractionChars, hspan, hexponent, h.whole.ne_nil, literal, places, scale, hfraction]

/-- A numeral is read as the real number of its literal. -/
theorem real?_chars (h : t.Formed) : real? t.chars = some t.literal.toFloat := by
  rw [real?, decimalLiteral?_chars h]
  rfl

theorem carriageReturn_not_mem_chars (h : t.Formed) : '\r' ∉ t.chars := by
  have hrow : ∀ digits, DigitRow digits → '\r' ∉ digits := fun digits hdigits hmem =>
    absurd (hdigits.all _ hmem) (by decide)
  have hsign : '\r' ∉ signChars t.negative := by
    cases t.negative <;> simp [signChars]
  have hfraction : '\r' ∉ fractionChars t.fraction := by
    cases hf : t.fraction with
    | none => simp [fractionChars]
    | some digits => simpa [fractionChars] using hrow digits (h.fraction digits hf)
  have hexponent : '\r' ∉ exponentChars t.exponent := by
    rcases he : t.exponent with _ | ⟨negative, digits⟩
    · simp [exponentChars]
    · have hdigits := hrow digits (h.exponent negative digits he)
      cases negative <;> simpa [exponentChars] using hdigits
  simp [chars, hsign, hrow _ h.whole, hfraction, hexponent]

def ofInt (n : Int) : Numeral := ⟨decide (n < 0), digitChars n.natAbs, none, none⟩

theorem lead_digitChars (n : Nat) : ∀ more, digitChars n = '0' :: more → more = [] := by
  intro more hmore
  by_cases hn : n = 0
  · subst hn
    exact (List.cons.inj (show '0' :: more = ['0'] from hmore.symm)).2
  · obtain ⟨c, rest, hrest, hc⟩ := head_digitChars hn
    exact absurd (List.cons.inj (hrest.symm.trans hmore)).1 hc

theorem formed_ofInt (n : Int) : (ofInt n).Formed :=
  ⟨digitRow_digitChars _, lead_digitChars _, nofun, nofun⟩

theorem toList_intText (n : Int) : (intText n).toList = (ofInt n).chars := by
  simp [intText, ofInt, chars, fractionChars, exponentChars]

theorem signedValue_ofInt (n : Int) :
    signedValue (ofInt n).negative ((ofInt n).whole.map digitValue) = n := by
  rw [signedValue, show (ofInt n).whole = digitChars n.natAbs from rfl, ofDigits_digitChars]
  by_cases hn : n < 0
  · rw [if_pos (by simpa [ofInt] using hn)]
    omega
  · rw [if_neg (by simpa [ofInt] using hn)]
    omega

end Numeral

section

variable {mantissa digits fuel : Nat} {exponent step leading point : Int} {d : Decimal}

/-- A decimal that reads back as a number above zero is above zero. -/
theorem gridHit_ne_zero (hm : mantissa ≠ 0) (h : gridHit mantissa exponent step = some digits) :
    digits ≠ 0 := by
  have hlow : 0 < (Rounds.of mantissa exponent).low := by
    unfold Rounds.of
    simp only []
    split <;> omega
  have hbinary : 0 < Nat.pow 2 (exponent - 2).toNat * Nat.pow 10 (-step).toNat :=
    Nat.mul_pos (Nat.pow_pos (by omega)) (Nat.pow_pos (by omega))
  have hpositive := Nat.mul_pos hlow hbinary
  -- Zero lies below the interval, so it is no hit on either side.
  unfold gridHit at h
  extract_lets rounds unit binary decimal value below inside twice preferBelow at h
  have hinside : inside digits = true := by
    split at h
    split at h
    · next hfirst => exact Option.some.inj h ▸ hfirst
    · split at h
      · next hsecond => exact Option.some.inj h ▸ hsecond
      · simp at h
  rintro rfl
  have hzero : ¬ rounds.low * binary ≤ 0 := Nat.not_le_of_lt hpositive
  simp only [inside, Nat.zero_mul] at hinside
  split at hinside <;> simp [hzero] at hinside

theorem normalize_ne_zero (fuel : Nat) (h : d.digits ≠ 0) : (d.normalize fuel).digits ≠ 0 := by
  induction fuel generalizing d with
  | zero => exact h
  | succ fuel ih =>
    unfold Decimal.normalize
    split
    · next hzero =>
      refine ih (d := ⟨d.digits / 10, d.exponent + 1⟩) ?_
      show d.digits / 10 ≠ 0
      omega
    · exact h

/-- The shortest decimal of a number above zero is zero only if no grid had a hit. -/
theorem shortest_eq_zero (hm : mantissa ≠ 0) (h : (shortest mantissa exponent).digits = 0) :
    (shortest mantissa exponent).exponent = 0 := by
  have hfrom : ∀ leading fuel places,
      (shortestFrom mantissa exponent leading fuel places).digits = 0 →
        (shortestFrom mantissa exponent leading fuel places).exponent = 0 := by
    intro leading fuel
    induction fuel with
    | zero => exact fun _ _ => rfl
    | succ fuel ih =>
      intro places hplaces
      unfold shortestFrom at hplaces ⊢
      simp only [] at hplaces ⊢
      split at hplaces
      · next digits hhit => exact absurd hplaces (normalize_ne_zero 20 (gridHit_ne_zero hm hhit))
      · exact ih _ hplaces
  exact hfrom _ _ _ h

end

namespace Numeral

variable {digits : List Char} {point exponent : Int} {d : Decimal}

/-- Digits with the point among them are a numeral with a fraction. -/
theorem exists_positional (negative : Bool) (h : DigitRow digits)
    (hlead : ∀ more, digits = '0' :: more → more = [] ∧ point = 1) :
    ∃ t : Numeral, t.Formed ∧ t.chars = signChars negative ++ positional digits point ∧
      t.fraction.isSome = true := by
  unfold positional
  split
  · refine ⟨⟨negative, ['0'], some (zeros (-point).toNat ++ digits), none⟩,
      ⟨digitRow_zero, by simp, ?_, nofun⟩, by simp [chars, fractionChars, exponentChars], rfl⟩
    rintro _ ⟨⟩
    exact h.zeros_append _
  · next hpoint =>
    obtain ⟨first, more, rfl, _⟩ := h.head
    split
    · refine ⟨⟨negative, first :: more ++ zeros (point.toNat - (first :: more).length),
        some ['0'], none⟩, ⟨h.append_zeros _, ?_, ?_, nofun⟩,
        by simp [chars, fractionChars, exponentChars], rfl⟩
      · intro others hothers
        obtain ⟨rfl, rfl⟩ := List.cons.inj hothers
        obtain ⟨rfl, rfl⟩ := hlead more rfl
        rfl
      · rintro _ ⟨⟩
        exact digitRow_zero
    · next hlength =>
      have hsplit : 0 < point.toNat ∧ point.toNat < (first :: more).length := by omega
      refine ⟨⟨negative, (first :: more).take point.toNat,
        some ((first :: more).drop point.toNat), none⟩,
        ⟨⟨?_, fun c hc => h.all c (List.mem_of_mem_take hc)⟩, ?_, ?_, nofun⟩,
        by simp [chars, fractionChars, exponentChars], rfl⟩
      · rw [ne_eq, List.take_eq_nil_iff]
        simp
        omega
      · intro others hothers
        rw [List.take_cons hsplit.1] at hothers
        obtain ⟨rfl, _⟩ := List.cons.inj hothers
        obtain ⟨rfl, rfl⟩ := hlead more rfl
        exact absurd hsplit.2 (by decide)
      · rintro _ ⟨⟩
        refine ⟨?_, fun c hc => h.all c (List.mem_of_mem_drop hc)⟩
        rw [ne_eq, List.drop_eq_nil_iff]
        omega

/-- Digits with an exponent are a numeral with one. -/
theorem exists_scientific (negative : Bool) (h : DigitRow digits) (exponent : Int) :
    ∃ t : Numeral, t.Formed ∧ t.chars = signChars negative ++ scientific digits exponent ∧
      t.exponent.isSome = true := by
  obtain ⟨first, more, rfl, hfirst⟩ := h.head
  refine ⟨⟨negative, [first], if more = [] then none else some more,
    some (decide (exponent < 0), zeros (2 - (digitChars exponent.natAbs).length) ++
      digitChars exponent.natAbs)⟩, ⟨⟨by simp, by simpa using hfirst⟩, by simp, ?_, ?_⟩, ?_, rfl⟩
  · intro row hrow
    split at hrow
    · simp at hrow
    · next hmore =>
      obtain rfl := Option.some.inj hrow
      exact ⟨hmore, fun c hc => h.all c (List.mem_cons_of_mem _ hc)⟩
  · rintro _ _ ⟨⟩
    exact (digitRow_digitChars _).zeros_append _
  · cases more with
    | nil | cons => simp [chars, fractionChars, exponentChars, scientific]

/-- The text of a finite real number is a numeral that does not pass for a whole number. -/
theorem exists_realText (style : RealStyle) {x : Float} {negative : Bool} {mantissa : Nat}
    (h : parts x = .finite negative mantissa exponent) :
    ∃ t : Numeral, t.Formed ∧ (style.text x).toList = t.chars ∧
      (t.fraction.isSome || t.exponent.isSome) = true := by
  unfold RealStyle.text
  rw [h]
  simp only [String.toList_ofList]
  split
  · refine ⟨⟨negative, ['0'], some ['0'], none⟩,
      ⟨digitRow_zero, by simp, ?_, nofun⟩, by simp [chars, fractionChars, exponentChars], rfl⟩
    rintro _ ⟨⟩
    exact digitRow_zero
  · next hm =>
    have hrow := digitRow_digitChars (shortest mantissa exponent).digits
    unfold RealStyle.decimal
    simp only []
    split
    · have hlead : ∀ more, digitChars (shortest mantissa exponent).digits = '0' :: more →
          more = [] ∧ ((digitChars (shortest mantissa exponent).digits).length : Int) +
            (shortest mantissa exponent).exponent = 1 := by
        intro more hmore
        obtain rfl := lead_digitChars _ more hmore
        refine ⟨rfl, ?_⟩
        have hzero : (shortest mantissa exponent).digits = 0 := by
          by_contra hne
          obtain ⟨c, others, hothers, hc⟩ := head_digitChars hne
          exact hc (List.cons.inj (hothers.symm.trans hmore)).1
        rw [hmore, shortest_eq_zero hm hzero]
        rfl
      obtain ⟨t, hformed, hchars, hfraction⟩ := exists_positional negative hrow hlead
      exact ⟨t, hformed, hchars.symm, by simp [hfraction]⟩
    · obtain ⟨t, hformed, hchars, hexponent⟩ := exists_scientific negative hrow _
      exact ⟨t, hformed, hchars.symm, by simp [hexponent]⟩

end Numeral

end AuditHours.Number
