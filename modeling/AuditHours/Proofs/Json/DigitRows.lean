import AuditHours.Proofs.Json.RoundTrip

/-!
Where a document has a number with too many digits. A reader takes the beginning of a text and
leaves a suffix of it. It stops at the number of digits only where it has come upon a row of so many
digits, so they stand somewhere in the text. A whole number that is too long is read by no reader,
neither by itself nor inside an object.
-/
namespace AuditHours.Json

open Number

def HasRow (count : Nat) (cs : List Char) : Prop :=
  ∃ digits, digits <:+: cs ∧ digits.length = count ∧ ∀ c ∈ digits, c.isDigit = true

/-- What a reader takes leaves a suffix of the text; if it stops at the number of digits, a longer
row of digits than may be read stands in the text. -/
def Taken.Within {α : Type} (t : Taken α) (cs : List Char) : Prop :=
  match t with
  | .ok (_, _, rest) => rest <:+ cs
  | .error (.tooManyDigits count) => maxDigits < count ∧ HasRow count cs
  | .error (.fault _ _) => True

namespace Taken.Within

variable {α β : Type} {t : Taken α} {cs before : List Char}

theorem mono (h : t.Within cs) (hcs : cs <:+ before) : t.Within before := by
  cases t with
  | ok taken => exact List.IsSuffix.trans h hcs
  | error stop =>
    cases stop with
    | fault => trivial
    | tooManyDigits count =>
      obtain ⟨hcount, digits, hinfix, hlength, hdigits⟩ := h
      exact ⟨hcount, digits, hinfix.trans hcs.isInfix, hlength, hdigits⟩

/-- Changing what is taken leaves the rest as it is. -/
theorem map (h : t.Within cs) (hcs : cs <:+ before)
    {f : α × Nat × List Char → β × Nat × List Char} (hf : ∀ taken, (f taken).2.2 = taken.2.2) :
    Within (t.map f) before := by
  cases t with
  | ok taken =>
    show (f taken).2.2 <:+ before
    rw [hf]
    exact List.IsSuffix.trans h hcs
  | error stop => cases stop <;> exact h.mono hcs

theorem push {t : Taken (List Nat)} (h : t.Within cs) (hcs : cs <:+ before) (n : Nat) :
    (t.push n).Within before :=
  h.map hcs fun _ => rfl

end Taken.Within

section

variable {cs rest : List Char}

theorem skipGap_suffix (position : Nat) (cs : List Char) : (skipGap position cs).2 <:+ cs := by
  induction cs generalizing position with
  | nil => exact List.suffix_refl []
  | cons c rest ih =>
    unfold skipGap
    split
    · exact (ih (position + 1)).trans (List.suffix_cons c rest)
    · exact List.suffix_refl _

/-- A string never stops at a number of digits. -/
theorem within_takeString (start position : Nat) (cs : List Char) :
    (takeString start position cs).Within cs := by
  fun_induction takeString start position cs with
  | case1 => trivial
  | case2 position rest => exact List.suffix_cons _ rest
  | case3 => trivial
  | case4 position a b c d e rest n hquad ih =>
    exact ih.push ⟨['\\', 'u', a, b, c, d], rfl⟩ n
  | case5 => trivial
  | case6 => trivial
  | case7 position c rest hcode hname named hnamed ih =>
    exact ih.push ⟨['\\', c], rfl⟩ named.toNat
  | case8 => trivial
  | case9 => trivial
  | case10 position c rest _ _ _ _ _ ih =>
    exact ih.push (List.suffix_cons c rest) c.toNat

/-! ### Numbers -/

theorem noDigit_dropWhile (cs : List Char) : NoDigit (cs.dropWhile Char.isDigit) := by
  induction cs with
  | nil => exact noDigit_nil
  | cons c rest ih =>
    by_cases hc : c.isDigit = true
    · simpa [hc] using ih
    · rw [List.dropWhile_cons_of_neg hc]
      exact noDigit_cons (by simpa using hc)

theorem spanDigits_eq (cs : List Char) : spanDigits cs =
    ((cs.takeWhile Char.isDigit).map digitValue, cs.dropWhile Char.isDigit) := by
  have hdigits : ∀ c ∈ cs.takeWhile Char.isDigit, c.isDigit = true :=
    List.all_eq_true.mp List.all_takeWhile
  have hspan := spanDigits_append hdigits (noDigit_dropWhile cs)
  rwa [List.takeWhile_append_dropWhile] at hspan

theorem takeWhole_eq_some {whole : List Nat} (h : takeWhole cs = some (whole, rest)) :
    ∃ digits, cs = digits ++ rest ∧ digits.length = whole.length ∧
      ∀ c ∈ digits, c.isDigit = true := by
  unfold takeWhole at h
  split at h
  · next others =>
    obtain ⟨rfl, rfl⟩ : [0] = whole ∧ others = rest := by simpa using h
    exact ⟨['0'], rfl, rfl, List.forall_mem_singleton.mpr rfl⟩
  · simp only [spanDigits_eq] at h
    split at h
    · simp at h
    · obtain ⟨rfl, rfl⟩ : (cs.takeWhile Char.isDigit).map digitValue = whole ∧
          cs.dropWhile Char.isDigit = rest := by simpa using h
      exact ⟨cs.takeWhile Char.isDigit, List.takeWhile_append_dropWhile.symm, by simp,
        List.all_eq_true.mp List.all_takeWhile⟩

theorem takeFraction_suffix {places : List Nat} (h : takeFraction cs = some (places, rest)) :
    rest <:+ cs := by
  unfold takeFraction at h
  split at h
  · next others =>
    simp only [spanDigits_eq] at h
    split at h
    · simp at h
    · obtain ⟨-, rfl⟩ : _ ∧ others.dropWhile Char.isDigit = rest := by simpa using h
      exact (List.dropWhile_suffix _).trans (List.suffix_cons _ others)
  · simp at h

theorem spanSign_suffix (cs : List Char) : (spanSign cs).2 <:+ cs := by
  unfold spanSign
  split
  · exact List.suffix_cons _ _
  · exact List.suffix_cons _ _
  · exact List.suffix_refl _

theorem takeExponent_suffix {scale : Int} (h : takeExponent cs = some (scale, rest)) :
    rest <:+ cs := by
  unfold takeExponent at h
  split at h
  · next c others =>
    split at h
    · simp only [spanDigits_eq] at h
      split at h
      · simp at h
      · obtain ⟨-, rfl⟩ : _ ∧ (spanSign others).2.dropWhile Char.isDigit = rest := by simpa using h
        exact ((List.dropWhile_suffix _).trans (spanSign_suffix others)).trans
          (List.suffix_cons c others)
    · simp at h
  · simp at h

/-- The digits of a whole part that is too long stand in the text as they are. -/
theorem within_takeNumber (position : Nat) (cs : List Char) : (takeNumber position cs).Within cs := by
  have hfraction : ∀ rest, ((takeFraction rest).map (·.2)).getD rest <:+ rest := by
    intro rest
    cases h : takeFraction rest with
    | none => exact List.suffix_refl rest
    | some found => exact takeFraction_suffix h
  have hexponent : ∀ rest, ((takeExponent rest).map (·.2)).getD rest <:+ rest := by
    intro rest
    cases h : takeExponent rest with
    | none => exact List.suffix_refl rest
    | some found => exact takeExponent_suffix h
  unfold takeNumber
  split
  next negative body hbody =>
  have hsigned : body <:+ cs := by
    split at hbody
    · obtain ⟨-, rfl⟩ := Prod.mk.inj hbody
      exact List.suffix_cons _ _
    · obtain ⟨-, rfl⟩ := Prod.mk.inj hbody
      exact List.suffix_refl _
  cases hwhole : takeWhole body with
  | none => trivial
  | some found =>
    obtain ⟨whole, rest⟩ := found
    obtain ⟨digits, rfl, hlength, hdigits⟩ := takeWhole_eq_some hwhole
    have hafter : ((takeExponent (((takeFraction rest).map (·.2)).getD rest)).map (·.2)).getD
        (((takeFraction rest).map (·.2)).getD rest) <:+ cs :=
      (((hexponent _).trans (hfraction rest)).trans (List.suffix_append digits rest)).trans hsigned
    simp only []
    split
    · split
      · exact hafter
      · next hcount =>
        have hinfix : digits <:+: cs := (List.prefix_append digits rest).isInfix.trans hsigned.isInfix
        exact ⟨Nat.lt_of_not_le hcount, digits, hinfix, hlength, hdigits⟩
    · exact hafter

theorem within_takeScalar (position : Nat) (cs : List Char) : (takeScalar position cs).Within cs := by
  unfold takeScalar
  split
  · exact ⟨['n', 'u', 'l', 'l'], rfl⟩
  · exact ⟨['t', 'r', 'u', 'e'], rfl⟩
  · exact ⟨['f', 'a', 'l', 's', 'e'], rfl⟩
  · exact ⟨['N', 'a', 'N'], rfl⟩
  · exact ⟨['I', 'n', 'f', 'i', 'n', 'i', 't', 'y'], rfl⟩
  · exact ⟨['-', 'I', 'n', 'f', 'i', 'n', 'i', 't', 'y'], rfl⟩
  · exact within_takeNumber position cs

end

/-! ### Values -/

section

variable {fuel : Nat}
  (hvalue : ∀ position cs, (takeValue fuel position cs).Within cs)
  (hitems : ∀ position cs, (takeItems fuel position cs).Within cs)
  (hfields : ∀ position cs, (takeFields fuel position cs).Within cs)

include hitems hfields in
theorem within_takeValue_succ (position : Nat) (cs : List Char) :
    (takeValue (fuel + 1) position cs).Within cs := by
  unfold takeValue
  split
  · next rest =>
    exact Taken.Within.map (within_takeString ..) (List.suffix_cons _ rest) fun _ => rfl
  · next rest =>
    have hgap := (skipGap_suffix (position + 1) rest).trans (List.suffix_cons '[' rest)
    split
    · next after others hskip =>
      rw [hskip] at hgap
      exact (List.suffix_cons _ others).trans hgap
    · next after others _ hskip =>
      rw [hskip] at hgap
      exact Taken.Within.map (hitems after others) hgap fun _ => rfl
  · next rest =>
    have hgap := (skipGap_suffix (position + 1) rest).trans (List.suffix_cons '\x7b' rest)
    split
    · next after others hskip =>
      rw [hskip] at hgap
      exact (List.suffix_cons _ others).trans hgap
    · next after others _ hskip =>
      rw [hskip] at hgap
      exact Taken.Within.map (hfields after others) hgap fun _ => rfl
  · exact within_takeScalar position cs

include hvalue hitems in
theorem within_takeItems_succ (position : Nat) (cs : List Char) :
    (takeItems (fuel + 1) position cs).Within cs := by
  have hfirst := hvalue position cs
  unfold takeItems
  split
  · next stop heq =>
    rw [heq] at hfirst
    cases stop <;> exact hfirst
  · next value after rest heq =>
    rw [heq] at hfirst
    have hgap : (skipGap after rest).2 <:+ cs := (skipGap_suffix after rest).trans hfirst
    split
    · next others hskip =>
      rw [hskip] at hgap
      exact (List.suffix_cons _ others).trans hgap
    · next comma others hskip =>
      rw [hskip] at hgap
      have hnext := (skipGap_suffix (comma + 1) others).trans
        ((List.suffix_cons _ others).trans hgap)
      exact Taken.Within.map (hitems _ _) hnext fun _ => rfl
    · trivial

include hfields in
theorem within_takeOtherFields (field : String × Value) {state : Nat × List Char} {cs : List Char}
    (hgap : state.2 <:+ cs) : (takeOtherFields fuel field state).Within cs := by
  unfold takeOtherFields
  split
  · next others => exact (List.suffix_cons _ others).trans hgap
  · next comma others =>
    have hnext := (skipGap_suffix (comma + 1) others).trans ((List.suffix_cons _ others).trans hgap)
    exact Taken.Within.map (hfields _ _) hnext fun _ => rfl
  · trivial

include hvalue hfields in
theorem within_takeFields_succ (position : Nat) (cs : List Char) :
    (takeFields (fuel + 1) position cs).Within cs := by
  unfold takeFields
  split
  · next text =>
    have hname := (within_takeString position (position + 1) text).mono (List.suffix_cons '"' text)
    split
    · next stop heq =>
      rw [heq] at hname
      cases stop <;> exact hname
    · next name after rest heq =>
      rw [heq] at hname
      have hgap : (skipGap after rest).2 <:+ '"' :: text := (skipGap_suffix after rest).trans hname
      split
      · next colon others hskip =>
        rw [hskip] at hgap
        have hnext := (skipGap_suffix (colon + 1) others).trans
          ((List.suffix_cons _ others).trans hgap)
        split
        next start given hstart =>
        rw [hstart] at hnext
        have hgiven := (hvalue start given).mono hnext
        split
        · next stop heq =>
          rw [heq] at hgiven
          cases stop <;> exact hgiven
        · next value behind rest heq =>
          rw [heq] at hgiven
          exact within_takeOtherFields hfields (stringOfCodes name, value)
            ((skipGap_suffix behind rest).trans hgiven)
      · trivial
  · trivial

end

/-- No reader leaves anything but a suffix, or stops at a number of digits without a cause. -/
theorem within_take (fuel : Nat) :
    (∀ position cs, (takeValue fuel position cs).Within cs) ∧
    (∀ position cs, (takeItems fuel position cs).Within cs) ∧
    ∀ position cs, (takeFields fuel position cs).Within cs := by
  induction fuel with
  | zero =>
    refine ⟨?_, ?_, ?_⟩ <;> intro position cs
    · rw [takeValue]
      trivial
    · rw [takeItems]
      trivial
    · rw [takeFields]
      trivial
  | succ fuel ih =>
    obtain ⟨hvalue, hitems, hfields⟩ := ih
    exact ⟨within_takeValue_succ hitems hfields, within_takeItems_succ hvalue hitems,
      within_takeFields_succ hvalue hfields⟩

/-- A document is refused for a number with too many digits only if as many digits stand in its
text, one behind the other. -/
theorem hasRow_of_tooManyDigits {text : String} {count : Nat}
    (h : read text = .error (.tooManyDigits count)) :
    maxDigits < count ∧ HasRow count text.toList := by
  have hstop : readChars text.toList = .error (.tooManyDigits count) := by
    unfold read at h
    cases hread : readChars text.toList with
    | ok v => simp [hread, Except.mapError] at h
    | error stop =>
      rw [hread] at h
      cases stop with
      | fault => simp [Except.mapError, ReadError.ofStop] at h
      | tooManyDigits other =>
        obtain rfl : other = count := by simpa [Except.mapError, ReadError.ofStop] using h
        rfl
  unfold readChars at hstop
  split at hstop
  · simp at hstop
  · split at hstop
    next position rest hskip =>
    have hgap := skipGap_suffix 0 text.toList
    rw [hskip] at hgap
    have hvalue := ((within_take (2 * text.toList.length + 2)).1 position rest).mono hgap
    split at hstop
    · next stop heq =>
      obtain rfl := Except.error.inj hstop
      rw [heq] at hvalue
      exact hvalue
    · split at hstop <;> simp at hstop

/-! ### A number that is not read -/

/-- A reader of fields stops where the reader of the first value stops. -/
theorem takeFields_of_stop {fuel : Nat} {c : Char} {cs : List Char} {stop : Stop} (name : String)
    (hc : isGap c = false) (hvalue : ∀ position, takeValue fuel position (c :: cs) = .error stop)
    (position : Nat) :
    takeFields (fuel + 1) position (stringText stringChar name ++ ':' :: ' ' :: c :: cs) =
      .error stop := by
  obtain ⟨middle, hname⟩ := takeString_flatMap name.toList (':' :: ' ' :: c :: cs) position
    (position + 1)
  have hcolon := skipGap_of_not_gap (c := ':') (by decide) middle (' ' :: c :: cs)
  have hblank : skipGap (middle + 1) (' ' :: c :: cs) = (middle + 2, c :: cs) :=
    skipGap_of_not_gap hc (middle + 2) cs
  have htext : stringText stringChar name ++ ':' :: ' ' :: c :: cs =
      '"' :: (name.toList.flatMap stringChar ++ '"' :: ':' :: ' ' :: c :: cs) := by
    simp [stringText]
  rw [htext]
  simp only [takeFields, hname, hcolon, hblank, hvalue]

theorem takeValue_of_stop {fuel : Nat} {cs : List Char} {stop : Stop}
    (hfields : ∀ position, takeFields fuel position ('"' :: cs) = .error stop) (position : Nat) :
    takeValue (fuel + 1) position ('\x7b' :: '"' :: cs) = .error stop := by
  have hquote := skipGap_of_not_gap (c := '"') (by decide) (position + 1) cs
  simp [takeValue, hquote, hfields, Except.map]

/-- An object with an object as its only field, which has a numeral as its only field. -/
def nestedChars (outer inner : String) (t : Numeral) : List Char :=
  '\x7b' :: (stringText stringChar outer ++ ':' :: ' ' ::
    '\x7b' :: (stringText stringChar inner ++ ':' :: ' ' :: (t.chars ++ ['\n', '\x7d', '\x7d'])))

/-- A whole number that is too long is not read, wherever it stands in the object. -/
theorem readChars_nestedChars (outer inner : String) {t : Numeral} (h : t.Formed)
    (hfraction : t.fraction = none) (hexponent : t.exponent = none)
    (hlong : maxDigits < t.whole.length) :
    readChars (nestedChars outer inner t) = .error (.tooManyDigits t.whole.length) := by
  have hclosing : Closing ['\n', '\x7d', '\x7d'] := closing_cons _ (Or.inr rfl)
  have hnumber : ∀ fuel position, takeValue (fuel + 1) position (t.chars ++ ['\n', '\x7d', '\x7d']) =
      .error (.tooManyDigits t.whole.length) := by
    intro fuel position
    rw [takeValue_chars h, takeNumber_chars h hclosing]
    simp [hfraction, hexponent, Nat.not_le_of_lt hlong]
  obtain ⟨c, cs, hc, hhead⟩ : ∃ c cs, isGap c = false ∧
      t.chars ++ ['\n', '\x7d', '\x7d'] = c :: cs := by
    obtain ⟨c, cs, hc, htext⟩ := head_chars h
    rcases htext with htext | htext
    · exact ⟨c, _, by simp [isGap, ne_of_isDigit hc], by rw [htext]; rfl⟩
    · exact ⟨'-', _, by decide, by rw [htext]; rfl⟩
  rw [hhead] at hnumber
  have hvalue : ∀ fuel position, takeValue (fuel + 5) position (nestedChars outer inner t) =
      .error (.tooManyDigits t.whole.length) := by
    intro fuel position
    rw [nestedChars, hhead]
    refine takeValue_of_stop (fun position => ?_) position
    refine takeFields_of_stop outer (by decide) (fun position => ?_) position
    refine takeValue_of_stop (fun position => ?_) position
    exact takeFields_of_stop inner hc (hnumber fuel) position
  obtain ⟨fuel, hfuel⟩ : ∃ fuel, 2 * (nestedChars outer inner t).length + 2 = fuel + 5 := by
    refine Nat.exists_eq_add_of_le' ?_
    simp only [nestedChars, List.length_cons, List.length_append]
    omega
  have hgap : skipGap 0 (nestedChars outer inner t) = (0, nestedChars outer inner t) :=
    skipGap_of_not_gap (by decide) 0 _
  have hmark : (nestedChars outer inner t).head? ≠ some '\uFEFF' := by
    simp [nestedChars]
  unfold readChars
  rw [if_neg hmark, hgap, hfuel]
  simp only [hvalue]

end AuditHours.Json
