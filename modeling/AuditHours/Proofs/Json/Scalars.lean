import AuditHours.Json.Printer
import AuditHours.Json.Reader
import AuditHours.Proofs.Number.Numeral

/-!
Reading scalars back. A numeral is taken as a whole, as a whole number if it has neither fraction
nor exponent and as a real number otherwise; a string between quotes is taken up to its closing
quote, and its escapes stand for the characters that were escaped.
-/
namespace AuditHours.Json

open Text Number

def Closing (rest : List Char) : Prop := ∀ c cs, rest = c :: cs → c = ',' ∨ c = '\n'

theorem closing_nil : Closing [] := nofun

theorem closing_cons {c : Char} (cs : List Char) (h : c = ',' ∨ c = '\n') : Closing (c :: cs) := by
  rintro d ds heq
  obtain ⟨rfl, rfl⟩ := List.cons.inj heq
  exact h

section

variable {t : Numeral} {rest : List Char}

theorem Closing.noDigit (h : Closing rest) : NoDigit rest := by
  intro c cs hrest
  rcases h c cs hrest with rfl | rfl <;> decide

theorem takeWhole_row {digits : List Char} (h : DigitRow digits)
    (hlead : ∀ more, digits = '0' :: more → more = []) (hrest : NoDigit rest) :
    takeWhole (digits ++ rest) = some (digits.map digitValue, rest) := by
  obtain ⟨c, more, rfl, hc⟩ := h.head
  have hspan := spanDigits_append h.all hrest
  by_cases hzero : c = '0'
  · subst hzero
    obtain rfl := hlead more rfl
    rfl
  · rw [List.cons_append] at hspan ⊢
    rw [takeWhole, hspan]
    · rfl
    · rintro _ heq
      exact hzero (List.cons.inj heq).1

theorem takeFraction_chars (f : Option (List Char))
    (h : ∀ digits, f = some digits → DigitRow digits) (hrest : NoDigit rest)
    (hpoint : ∀ cs, rest ≠ '.' :: cs) :
    takeFraction (Numeral.fractionChars f ++ rest) =
      f.map fun digits => (digits.map digitValue, rest) := by
  cases f with
  | none =>
    rw [Numeral.fractionChars, List.nil_append, takeFraction.eq_def]
    split
    · next cs => exact absurd rfl (hpoint cs)
    · rfl
  | some digits =>
    have hrow := h digits rfl
    simp [Numeral.fractionChars, takeFraction, spanDigits_append hrow.all hrest, hrow.ne_nil]

theorem takeExponent_chars (e : Option (Bool × List Char))
    (h : ∀ negative digits, e = some (negative, digits) → DigitRow digits) (hrest : Closing rest) :
    takeExponent (Numeral.exponentChars e ++ rest) =
      e.map fun (negative, digits) => (signedValue negative (digits.map digitValue), rest) := by
  rcases e with _ | ⟨negative, digits⟩
  · cases rest with
    | nil => rfl
    | cons c cs => rcases hrest c cs rfl with rfl | rfl <;> rfl
  · have hrow := h negative digits rfl
    have hsign : spanSign ((if negative then '-' else '+') :: (digits ++ rest)) =
        (negative, digits ++ rest) := by
      cases negative <;> rfl
    simp [Numeral.exponentChars, takeExponent, hsign, spanDigits_append hrow.all hrest.noDigit,
      hrow.ne_nil]

/-- A numeral is taken apart up to what follows it. -/
theorem takeNumber_chars (h : t.Formed) (hrest : Closing rest) (position : Nat) :
    takeNumber position (t.chars ++ rest) =
      if t.fraction.isNone && t.exponent.isNone then
        if t.whole.length ≤ maxDigits then
          .ok (.int (signedValue t.negative (t.whole.map digitValue)),
            position + t.chars.length, rest)
        else .error (.tooManyDigits t.whole.length)
      else .ok (.real t.literal.toFloat, position + t.chars.length, rest) := by
  have hend : NoDigit (Numeral.exponentChars t.exponent ++ rest) :=
    Numeral.noDigit_exponent t.exponent hrest.noDigit
  have hpoint : ∀ cs, Numeral.exponentChars t.exponent ++ rest ≠ '.' :: cs := by
    intro cs
    rcases t.exponent with _ | ⟨negative, digits⟩
    · intro heq
      rcases hrest _ _ heq with hc | hc <;> simp at hc
    · simp [Numeral.exponentChars]
  have hwhole := takeWhole_row h.whole h.lead (Numeral.noDigit_fraction t.fraction hend)
  have hfraction := takeFraction_chars t.fraction h.fraction hend hpoint
  have hexponent := takeExponent_chars t.exponent h.exponent hrest
  obtain ⟨c, more, hhead, hc⟩ := h.whole.head
  have hminus : c ≠ '-' := ne_of_isDigit hc (by decide)
  have htext : t.chars ++ rest = signChars t.negative ++ (t.whole ++
      (Numeral.fractionChars t.fraction ++ (Numeral.exponentChars t.exponent ++ rest))) := by
    simp [Numeral.chars]
  unfold takeNumber
  split
  next negative body hbody =>
  obtain ⟨rfl, rfl⟩ : negative = t.negative ∧ body = t.whole ++
      (Numeral.fractionChars t.fraction ++ (Numeral.exponentChars t.exponent ++ rest)) := by
    rw [htext, hhead] at hbody
    cases hn : t.negative <;> simp [hn, signChars, hminus] at hbody <;> simp [hbody, hhead]
  rw [hwhole]
  have hnone : Numeral.fractionChars none = [] ∧ Numeral.exponentChars none = [] := ⟨rfl, rfl⟩
  rcases hf : t.fraction with _ | places <;> rcases he : t.exponent with _ | ⟨sign, scale⟩ <;>
    simp only [hf, he, hnone, Option.map, List.nil_append] at hfraction hexponent <;>
    simp [hfraction, hexponent, hnone, Numeral.literal, Numeral.places, Numeral.scale, hf, he]

/-- A numeral starts with a digit, or with a minus sign and a digit. -/
theorem head_chars (h : t.Formed) : ∃ c cs, c.isDigit = true ∧
    (t.chars = c :: cs ∨ t.chars = '-' :: c :: cs) := by
  obtain ⟨c, more, hwhole, hc⟩ := h.whole.head
  refine ⟨c, more ++ (Numeral.fractionChars t.fraction ++ Numeral.exponentChars t.exponent), hc, ?_⟩
  cases hn : t.negative with
  | false => exact Or.inl (by rw [Numeral.chars, hn, hwhole]; rfl)
  | true => exact Or.inr (by rw [Numeral.chars, hn, hwhole]; rfl)

/-- A numeral is no name of a value. -/
theorem takeScalar_chars (h : t.Formed) (rest : List Char) (position : Nat) :
    takeScalar position (t.chars ++ rest) = takeNumber position (t.chars ++ rest) := by
  obtain ⟨c, cs, hc, htext⟩ := head_chars h
  rw [takeScalar.eq_def]
  rcases htext with htext | htext <;> rw [htext] <;> simp only [List.cons_append]
  · split <;> first
      | rfl
      | next heq => exact absurd (List.cons.inj heq).1 (ne_of_isDigit hc (by decide))
  · split <;> first
      | rfl
      | next heq => exact absurd (List.cons.inj heq).1 (by decide)
      | next heq =>
        exact absurd (List.cons.inj (List.cons.inj heq).2).1 (ne_of_isDigit hc (by decide))

end

/-- The code escape of a control character is read as its code point. -/
theorem hexQuad?_hexDigits : ∀ n < 0x20, ∃ a b c d,
    hexDigits 4 n = [a, b, c, d] ∧ hexQuad? a b c d = some n := by
  intro n hn
  refine ⟨hexDigit (n / 16 / 16 / 16 % 16), hexDigit (n / 16 / 16 % 16), hexDigit (n / 16 % 16),
    hexDigit (n % 16), rfl, ?_⟩
  revert n
  decide

/-- A short escape is a backslash and the letter that stands for the character. -/
theorem shortEscape?_eq_some {c : Char} {escape : List Char} (h : shortEscape? c = some escape) :
    ∃ letter, escape = ['\\', letter] ∧ letter ≠ 'u' ∧ namedEscape? letter = some c := by
  unfold shortEscape? at h
  split at h <;> first
    | exact ⟨_, (Option.some.inj h).symm, by decide, rfl⟩
    | simp at h

/-- One printed character is read as its code point if the string goes on. -/
theorem takeString_stringChar (c : Char) (start position : Nat) (next : Char) (rest : List Char) :
    ∃ after, takeString start position (stringChar c ++ next :: rest) =
      (takeString start after (next :: rest)).push c.toNat := by
  unfold stringChar
  cases hescape : shortEscape? c with
  | some escape =>
    obtain ⟨letter, rfl, hletter, hnamed⟩ := shortEscape?_eq_some hescape
    refine ⟨position + 2, ?_⟩
    simp [takeString, hletter, hnamed]
  | none =>
    simp only []
    split
    · next hcontrol =>
      obtain ⟨a, b, d, e, hdigits, hquad⟩ := hexQuad?_hexDigits c.toNat hcontrol
      refine ⟨position + 6, ?_⟩
      simp [codeEscape4, hdigits, takeString, hquad]
    · next hplain =>
      have hquote : c ≠ '"' := by rintro rfl; simp [shortEscape?] at hescape
      have hslash : c ≠ '\\' := by rintro rfl; simp [shortEscape?] at hescape
      refine ⟨position + 1, ?_⟩
      simp [takeString, hslash, hplain]

/-- A printed string is read up to its closing quote. -/
theorem takeString_flatMap (cs rest : List Char) (start position : Nat) :
    ∃ after, takeString start position (cs.flatMap stringChar ++ '"' :: rest) =
      .ok (cs.map Char.toNat, after, rest) := by
  induction cs generalizing position with
  | nil => exact ⟨position + 1, by simp [takeString]⟩
  | cons c cs ih =>
    obtain ⟨next, more, hnext⟩ : ∃ next more, cs.flatMap stringChar ++ '"' :: rest = next :: more :=
      List.exists_cons_of_ne_nil (by simp)
    obtain ⟨middle, hc⟩ := takeString_stringChar c start position next more
    obtain ⟨after, hcs⟩ := ih middle
    refine ⟨after, ?_⟩
    rw [List.flatMap_cons, List.append_assoc, hnext, hc, ← hnext, hcs]
    rfl

/-- Characters are read as they are, since none of them is half of a pair. -/
theorem joinHalves_toNat (cs : List Char) : joinHalves (cs.map Char.toNat) = cs := by
  have hhalf : ∀ c : Char, isHighHalf c.toNat = false ∧ codeChar c.toNat = c := by
    intro c
    have hvalid : c.toNat < 0xD800 ∨ 0xDFFF < c.toNat ∧ c.toNat < 0x110000 := c.valid
    have hhigh : isHighHalf c.toNat = false := by
      simp [isHighHalf]
      omega
    have hlow : isLowHalf c.toNat = false := by
      simp [isLowHalf]
      omega
    exact ⟨hhigh, by simp [codeChar, hhigh, hlow]⟩
  induction cs with
  | nil => rfl
  | cons c cs ih =>
    cases cs with
    | nil => simp [joinHalves, hhalf c]
    | cons d cs => simp [joinHalves, hhalf c] at ih ⊢; exact ih

end AuditHours.Json
