import AuditHours.Proofs.Json.Fields
import AuditHours.Proofs.Json.Scalars

/-!
Reading a printed document. The reader follows the indented form value by value: it skips the line
breaks and blanks between the parts and takes each item and each field from the text that was
printed for it, so it ends with the value that was printed.
-/
namespace AuditHours.Json

open Number

/-- The values that survive printing: whole numbers with few enough digits, finite real numbers
whose text reads back, and objects that give no key twice. -/
inductive Portable : Value → Prop
  | null : Portable .null
  | bool (b : Bool) : Portable (.bool b)
  | int {n : Int} (hdigits : (digitChars n.natAbs).length ≤ maxDigits) : Portable (.int n)
  | real {x : Float} {negative : Bool} {mantissa : Nat} {exponent : Int}
      (hfinite : parts x = .finite negative mantissa exponent)
      (htext : real? (RealStyle.document.text x).toList = some x) : Portable (.real x)
  | str (s : String) : Portable (.str s)
  | arr {items : List Value} (hitems : ∀ item ∈ items, Portable item) : Portable (.arr items)
  | obj {fields : Fields} (hkeys : (fields.map Prod.fst).Nodup)
      (hfields : ∀ field ∈ fields, Portable field.2) : Portable (.obj fields)

/-- A character that starts a value: no blank, no mark of the byte order and no closing bracket. -/
def Opening (c : Char) : Prop := isGap c = false ∧ c ≠ '\uFEFF' ∧ c ≠ ']'

instance : DecidablePred Opening := fun _ => inferInstanceAs (Decidable (_ ∧ _ ∧ _))

/-- A value whose indented form starts a value and is read back at any depth. -/
structure ReadsBack (v : Value) : Prop where
  head : ∀ depth, ∃ c cs, indentedAt depth v = c :: cs ∧ Opening c
  value : ∀ depth fuel position rest, (indentedAt depth v).length ≤ fuel → Closing rest →
    ∃ after, takeValue fuel position (indentedAt depth v ++ rest) = .ok (v, after, rest)

section

variable {v : Value} {c : Char}

theorem skipGap_of_not_gap (h : isGap c = false) (position : Nat) (cs : List Char) :
    skipGap position (c :: cs) = (position, c :: cs) := by
  simp [skipGap, h]

/-- A line break and the blanks behind it are skipped. -/
theorem skipGap_indent (h : isGap c = false) (position depth : Nat) (cs : List Char) :
    ∃ after, skipGap position (indent depth ++ c :: cs) = (after, c :: cs) := by
  have hblanks : ∀ count position, ∃ after,
      skipGap position (List.replicate count ' ' ++ c :: cs) = (after, c :: cs) := by
    intro count
    induction count with
    | zero => exact fun position => ⟨position, skipGap_of_not_gap h position cs⟩
    | succ count ih => exact fun position => ih (position + 1)
  exact hblanks (2 * depth) (position + 1)

theorem closing_indent (depth : Nat) (cs : List Char) : Closing (indent depth ++ cs) :=
  closing_cons _ (Or.inr rfl)

/-- The blanks before a value are skipped. -/
theorem ReadsBack.skipGap_indent (h : ReadsBack v) (position depth : Nat) (rest : List Char) :
    ∃ after, skipGap position (indent depth ++ (indentedAt depth v ++ rest)) =
      (after, indentedAt depth v ++ rest) := by
  obtain ⟨c, cs, hhead, hopening⟩ := h.head depth
  rw [hhead]
  exact Json.skipGap_indent hopening.1 position depth (cs ++ rest)

end

/-- The items of an array are read back up to its closing bracket. -/
theorem takeItems_indented {first : Value} {items : List Value}
    (h : ∀ item ∈ first :: items, ReadsBack item) (depth outer fuel position : Nat)
    (rest : List Char)
    (hfuel : (indentedAt depth first).length + (indentedItems depth items).length < fuel) :
    ∃ after, takeItems fuel position (indentedAt depth first ++ (indentedItems depth items ++
      (indent outer ++ ']' :: rest))) = .ok (first :: items, after, rest) := by
  -- Each item costs one step besides its own, which the comma or the bracket behind it pays for.
  induction items generalizing first fuel position with
  | nil =>
    obtain ⟨fuel, rfl⟩ := Nat.exists_eq_add_one_of_ne_zero (by omega : fuel ≠ 0)
    obtain ⟨middle, hfirst⟩ := (h first (List.mem_cons_self ..)).value depth fuel position
      (indent outer ++ ']' :: rest) (by omega) (closing_indent _ _)
    obtain ⟨after, hgap⟩ := skipGap_indent (c := ']') (by decide) middle outer rest
    exact ⟨after + 1, by simp only [takeItems, indentedItems, List.nil_append, hfirst, hgap]⟩
  | cons second more ih =>
    obtain ⟨fuel, rfl⟩ := Nat.exists_eq_add_one_of_ne_zero (by omega : fuel ≠ 0)
    have hothers : ∀ item ∈ second :: more, ReadsBack item := fun item hitem =>
      h item (List.mem_cons_of_mem _ hitem)
    have hitems : indentedItems depth (second :: more) ++ (indent outer ++ ']' :: rest) =
        ',' :: (indent depth ++ (indentedAt depth second ++ (indentedItems depth more ++
          (indent outer ++ ']' :: rest)))) := by
      simp [indentedItems]
    have hlength : (indentedItems depth (second :: more)).length = 1 + (indent depth).length +
        (indentedAt depth second).length + (indentedItems depth more).length := by
      simp [indentedItems]
      omega
    obtain ⟨middle, hfirst⟩ := (h first (List.mem_cons_self ..)).value depth fuel position
      _ (by omega) (closing_cons (indent depth ++ (indentedAt depth second ++
        (indentedItems depth more ++ (indent outer ++ ']' :: rest)))) (Or.inl rfl))
    obtain ⟨next, hgap⟩ := (hothers second (List.mem_cons_self ..)).skipGap_indent (middle + 1)
      depth (indentedItems depth more ++ (indent outer ++ ']' :: rest))
    obtain ⟨after, hmore⟩ := ih hothers fuel next (by omega)
    refine ⟨after, ?_⟩
    rw [hitems]
    simp only [takeItems, hfirst, skipGap_of_not_gap (c := ',') (by decide), hgap, hmore]
    rfl

/-- What the reader of fields does behind a field: the object ends, or other fields follow. -/
def takeOtherFields (fuel : Nat) (field : String × Value) :
    Nat × List Char → Taken (List (String × Value))
  | (position, '\x7d' :: rest) => .ok ([field], position + 1, rest)
  | (position, ',' :: rest) =>
    let (position, rest) := skipGap (position + 1) rest
    (takeFields fuel position rest).map fun (fields, position, rest) =>
      (field :: fields, position, rest)
  | (position, _) => .error (.fault .expectedComma position)

/-- A field is read back as its name and its value. -/
theorem takeFields_indentedField {field : String × Value} (h : ReadsBack field.2)
    {depth fuel : Nat} (hfuel : (indentedField depth field).length ≤ fuel) {rest : List Char}
    (hrest : Closing rest) (position : Nat) :
    ∃ after, takeFields (fuel + 1) position (indentedField depth field ++ rest) =
      takeOtherFields fuel field (skipGap after rest) := by
  obtain ⟨name, v⟩ := field
  have htext : indentedField depth (name, v) ++ rest = '"' :: (name.toList.flatMap stringChar ++
      '"' :: (':' :: (' ' :: (indentedAt depth v ++ rest)))) := by
    simp [indentedField, stringText]
  have hlength : (indentedAt depth v).length ≤ fuel := by
    simp [indentedField] at hfuel
    omega
  obtain ⟨middle, hname⟩ := takeString_flatMap name.toList
    (':' :: (' ' :: (indentedAt depth v ++ rest))) position (position + 1)
  have hcolon := skipGap_of_not_gap (c := ':') (by decide) middle
    (' ' :: (indentedAt depth v ++ rest))
  have hblank : skipGap (middle + 1) (' ' :: (indentedAt depth v ++ rest)) =
      (middle + 2, indentedAt depth v ++ rest) := by
    obtain ⟨c, cs, hhead, hopening⟩ := h.head depth
    rw [hhead]
    exact skipGap_of_not_gap hopening.1 (middle + 2) (cs ++ rest)
  obtain ⟨after, hvalue⟩ := h.value depth fuel (middle + 2) rest hlength hrest
  have hjoined : stringOfCodes (name.toList.map Char.toNat) = name := by
    simp [stringOfCodes, joinHalves_toNat]
  refine ⟨after, ?_⟩
  rw [htext]
  simp only [takeFields, hname, hcolon, hblank, hvalue, hjoined]
  rfl

/-- A field starts with the quote of its name. -/
theorem head_indentedField (field : String × Value) (depth : Nat) :
    ∃ cs, indentedField depth field = '"' :: cs := by
  obtain ⟨name, v⟩ := field
  exact ⟨_, by rw [indentedField, stringText]; rfl⟩

/-- The blanks before a field are skipped. -/
theorem skipGap_indentedField (field : String × Value) (position depth : Nat) (rest : List Char) :
    ∃ after, skipGap position (indent depth ++ (indentedField depth field ++ rest)) =
      (after, indentedField depth field ++ rest) := by
  obtain ⟨cs, hhead⟩ := head_indentedField field depth
  rw [hhead]
  exact skipGap_indent (by decide) position depth (cs ++ rest)

/-- The fields of an object are read back up to its closing brace. -/
theorem takeFields_indented {first : String × Value} {fields : Fields}
    (h : ∀ field ∈ first :: fields, ReadsBack field.2) (depth outer fuel position : Nat)
    (rest : List Char)
    (hfuel : (indentedField depth first).length + (indentedFields depth fields).length < fuel) :
    ∃ after, takeFields fuel position (indentedField depth first ++ (indentedFields depth fields ++
      (indent outer ++ '\x7d' :: rest))) = .ok (first :: fields, after, rest) := by
  induction fields generalizing first fuel position with
  | nil =>
    obtain ⟨fuel, rfl⟩ := Nat.exists_eq_add_one_of_ne_zero (by omega : fuel ≠ 0)
    obtain ⟨middle, hfirst⟩ := takeFields_indentedField (h first (List.mem_cons_self ..))
      (by omega : (indentedField depth first).length ≤ fuel)
      (closing_indent outer ('\x7d' :: rest)) position
    obtain ⟨after, hgap⟩ := skipGap_indent (c := '\x7d') (by decide) middle outer rest
    refine ⟨after + 1, ?_⟩
    rw [indentedFields, List.nil_append, hfirst, hgap]
    rfl
  | cons second more ih =>
    obtain ⟨fuel, rfl⟩ := Nat.exists_eq_add_one_of_ne_zero (by omega : fuel ≠ 0)
    have hothers : ∀ field ∈ second :: more, ReadsBack field.2 := fun field hfield =>
      h field (List.mem_cons_of_mem _ hfield)
    have hfields : indentedFields depth (second :: more) ++ (indent outer ++ '\x7d' :: rest) =
        ',' :: (indent depth ++ (indentedField depth second ++ (indentedFields depth more ++
          (indent outer ++ '\x7d' :: rest)))) := by
      simp [indentedFields]
    have hlength : (indentedFields depth (second :: more)).length = 1 + (indent depth).length +
        (indentedField depth second).length + (indentedFields depth more).length := by
      simp [indentedFields]
      omega
    obtain ⟨middle, hfirst⟩ := takeFields_indentedField (h first (List.mem_cons_self ..))
      (by omega : (indentedField depth first).length ≤ fuel)
      (closing_cons (indent depth ++ (indentedField depth second ++
        (indentedFields depth more ++ (indent outer ++ '\x7d' :: rest)))) (Or.inl rfl)) position
    obtain ⟨next, hgap⟩ := skipGap_indentedField second (middle + 1) depth
      (indentedFields depth more ++ (indent outer ++ '\x7d' :: rest))
    obtain ⟨after, hmore⟩ := ih hothers fuel next (by omega)
    refine ⟨after, ?_⟩
    rw [hfields, hfirst, skipGap_of_not_gap (c := ',') (by decide), takeOtherFields, hgap]
    simp only [hmore]
    rfl

/-- A numeral is read back as what it writes. -/
theorem takeValue_chars {t : Numeral} (h : t.Formed) (fuel position : Nat) (rest : List Char) :
    takeValue (fuel + 1) position (t.chars ++ rest) = takeNumber position (t.chars ++ rest) := by
  rw [← takeScalar_chars h]
  obtain ⟨c, cs, hc, htext⟩ := head_chars h
  rw [takeValue.eq_def]
  rcases htext with htext | htext <;> rw [htext] <;> simp only [List.cons_append]
  · split <;> first
      | rfl
      | next heq => exact absurd (List.cons.inj heq).1 (ne_of_isDigit hc (by decide))
  · split <;> first
      | rfl
      | next heq => exact absurd (List.cons.inj heq).1 (by decide)

/-- A scalar is printed by the printer of scalars. -/
theorem indentedAt_scalar {v : Value} (depth : Nat) (harr : ∀ items, v ≠ .arr items)
    (hobj : ∀ fields, v ≠ .obj fields) : indentedAt depth v = scalarText stringChar v := by
  cases v with
  | arr items => exact absurd rfl (harr items)
  | obj fields => exact absurd rfl (hobj fields)
  | null | bool | int | real | str => rw [indentedAt] <;> simp

/-- A value that is printed alike at every depth is read back if its text is. -/
theorem readsBack_of_text {v : Value} {text : List Char}
    (htext : ∀ depth, indentedAt depth v = text)
    (hhead : ∃ c cs, text = c :: cs ∧ Opening c)
    (hvalue : ∀ fuel position rest, Closing rest →
      ∃ after, takeValue (fuel + 1) position (text ++ rest) = .ok (v, after, rest)) :
    ReadsBack v := by
  refine ⟨fun depth => by rw [htext depth]; exact hhead,
    fun depth fuel position rest hfuel hrest => ?_⟩
  obtain ⟨c, cs, rfl, _⟩ := hhead
  rw [htext depth] at hfuel ⊢
  obtain ⟨fuel, rfl⟩ := Nat.exists_eq_add_one_of_ne_zero (by simp at hfuel; omega : fuel ≠ 0)
  exact hvalue fuel position rest hrest

theorem readsBack_null : ReadsBack .null := by
  exact readsBack_of_text (fun depth => indentedAt_scalar depth (by simp) (by simp))
    ⟨'n', _, rfl, by decide⟩ fun fuel position rest _ => ⟨position + 4, rfl⟩

theorem readsBack_bool (b : Bool) : ReadsBack (.bool b) := by
  cases b with
  | true =>
    exact readsBack_of_text (fun depth => indentedAt_scalar depth (by simp) (by simp))
      ⟨'t', _, rfl, by decide⟩ fun fuel position rest _ => ⟨position + 4, rfl⟩
  | false =>
    exact readsBack_of_text (fun depth => indentedAt_scalar depth (by simp) (by simp))
      ⟨'f', _, rfl, by decide⟩ fun fuel position rest _ => ⟨position + 5, rfl⟩

/-- A value that is written as a numeral is read back if the numeral has the value. -/
theorem readsBack_of_chars {v : Value} {t : Numeral} (h : t.Formed)
    (htext : ∀ depth, indentedAt depth v = t.chars)
    (hvalue : ∀ position rest, Closing rest →
      takeNumber position (t.chars ++ rest) = .ok (v, position + t.chars.length, rest)) :
    ReadsBack v := by
  refine readsBack_of_text htext ?_ fun fuel position rest hrest =>
    ⟨_, by rw [takeValue_chars h, hvalue position rest hrest]⟩
  obtain ⟨c, cs, hc, hchars⟩ := head_chars h
  rcases hchars with hchars | hchars <;> rw [hchars]
  · exact ⟨c, cs, rfl, by simp [isGap, ne_of_isDigit hc], ne_of_isDigit hc (by decide),
      ne_of_isDigit hc (by decide)⟩
  · exact ⟨'-', c :: cs, rfl, by decide⟩

theorem readsBack_int {n : Int} (hdigits : (digitChars n.natAbs).length ≤ maxDigits) :
    ReadsBack (.int n) := by
  have hformed := Numeral.formed_ofInt n
  refine readsBack_of_chars hformed (fun depth => ?_) fun position rest hrest => ?_
  · rw [indentedAt_scalar depth (by simp) (by simp), scalarText, Numeral.toList_intText]
  · have hwhole : (Numeral.ofInt n).whole.length ≤ maxDigits := hdigits
    rw [takeNumber_chars hformed hrest, Numeral.signedValue_ofInt, if_pos (by rfl), if_pos hwhole]

theorem readsBack_real {x : Float} {negative : Bool} {mantissa : Nat} {exponent : Int}
    (hfinite : parts x = .finite negative mantissa exponent)
    (htext : real? (RealStyle.document.text x).toList = some x) : ReadsBack (.real x) := by
  obtain ⟨t, hformed, hchars, hreal⟩ := Numeral.exists_realText RealStyle.document hfinite
  rw [hchars, Numeral.real?_chars hformed] at htext
  have hkind : (t.fraction.isNone && t.exponent.isNone) = false := by
    cases ht : t.fraction <;> cases he : t.exponent <;> simp [ht, he] at hreal ⊢
  refine readsBack_of_chars hformed (fun depth => ?_) fun position rest hrest => ?_
  · rw [indentedAt_scalar depth (by simp) (by simp), scalarText, hchars]
  · rw [takeNumber_chars hformed hrest, hkind, if_neg (by decide), Option.some.inj htext]

theorem readsBack_str (s : String) : ReadsBack (.str s) := by
  refine readsBack_of_text (fun depth => indentedAt_scalar depth (by simp) (by simp))
    ⟨'"', _, rfl, by decide⟩ fun fuel position rest _ => ?_
  have htext : scalarText stringChar (.str s) ++ rest =
      '"' :: (s.toList.flatMap stringChar ++ '"' :: rest) := by
    simp [scalarText, stringText]
  obtain ⟨after, hstring⟩ := takeString_flatMap s.toList rest position (position + 1)
  refine ⟨after, ?_⟩
  rw [htext]
  simp [takeValue, hstring, Except.map, stringOfCodes, joinHalves_toNat]

theorem readsBack_arr {items : List Value} (h : ∀ item ∈ items, ReadsBack item) :
    ReadsBack (.arr items) := by
  cases items with
  | nil =>
    refine readsBack_of_text (fun depth => by rw [indentedAt]) ⟨'[', _, rfl, by decide⟩
      fun fuel position rest _ => ⟨position + 2, ?_⟩
    simp [takeValue, skipGap_of_not_gap (c := ']') (by decide)]
  | cons first more =>
    have htext : ∀ depth rest, indentedAt depth (.arr (first :: more)) ++ rest =
        '[' :: (indent (depth + 1) ++ (indentedAt (depth + 1) first ++
          (indentedItems (depth + 1) more ++ (indent depth ++ ']' :: rest)))) := by
      intro depth rest
      rw [indentedAt]
      simp
    refine ⟨fun depth => ⟨'[', _, by rw [indentedAt]; rfl, by decide⟩,
      fun depth fuel position rest hfuel _ => ?_⟩
    have hlength := congrArg List.length (htext depth [])
    simp only [List.append_nil, List.length_cons, List.length_append, List.length_nil] at hlength
    obtain ⟨fuel, rfl⟩ := Nat.exists_eq_add_one_of_ne_zero (by omega : fuel ≠ 0)
    have hfirst := h first (List.mem_cons_self ..)
    obtain ⟨middle, hgap⟩ := hfirst.skipGap_indent (position + 1) (depth + 1)
      (indentedItems (depth + 1) more ++ (indent depth ++ ']' :: rest))
    obtain ⟨after, hitems⟩ := takeItems_indented h (depth + 1) depth fuel middle rest (by omega)
    obtain ⟨c, cs, hhead, _, _, hc⟩ := hfirst.head (depth + 1)
    refine ⟨after, ?_⟩
    rw [htext]
    simp only [hhead, List.cons_append] at hgap hitems ⊢
    simp [takeValue, hgap, hitems, hc, Except.map]

theorem readsBack_obj {fields : Fields} (hkeys : (fields.map Prod.fst).Nodup)
    (h : ∀ field ∈ fields, ReadsBack field.2) : ReadsBack (.obj fields) := by
  cases fields with
  | nil =>
    refine readsBack_of_text (fun depth => by rw [indentedAt])
      ⟨'\x7b', _, rfl, by decide⟩ fun fuel position rest _ => ⟨position + 2, ?_⟩
    simp [takeValue, skipGap_of_not_gap (c := '\x7d') (by decide)]
  | cons first more =>
    have htext : ∀ depth rest, indentedAt depth (.obj (first :: more)) ++ rest =
        '\x7b' :: (indent (depth + 1) ++ (indentedField (depth + 1) first ++
          (indentedFields (depth + 1) more ++ (indent depth ++ '\x7d' :: rest)))) := by
      intro depth rest
      rw [indentedAt]
      simp
    refine ⟨fun depth => ⟨'\x7b', _, by rw [indentedAt]; rfl, by decide⟩,
      fun depth fuel position rest hfuel _ => ?_⟩
    have hlength := congrArg List.length (htext depth [])
    simp only [List.append_nil, List.length_cons, List.length_append, List.length_nil] at hlength
    obtain ⟨fuel, rfl⟩ := Nat.exists_eq_add_one_of_ne_zero (by omega : fuel ≠ 0)
    obtain ⟨middle, hgap⟩ := skipGap_indentedField first (position + 1) (depth + 1)
      (indentedFields (depth + 1) more ++ (indent depth ++ '\x7d' :: rest))
    obtain ⟨after, hfields⟩ := takeFields_indented h (depth + 1) depth fuel middle rest (by omega)
    obtain ⟨cs, hhead⟩ := head_indentedField first (depth + 1)
    refine ⟨after, ?_⟩
    rw [htext]
    simp only [hhead, List.cons_append] at hgap hfields ⊢
    simp [takeValue, hgap, hfields, Except.map, ofPairs_of_nodup hkeys]

/-- Every value that survives printing is read back. -/
theorem Portable.readsBack {v : Value} (h : Portable v) : ReadsBack v := by
  induction h with
  | null => exact readsBack_null
  | bool b => exact readsBack_bool b
  | int hdigits => exact readsBack_int hdigits
  | real hfinite htext => exact readsBack_real hfinite htext
  | str s => exact readsBack_str s
  | arr _ ih => exact readsBack_arr ih
  | obj hkeys _ ih => exact readsBack_obj hkeys ih

/-- The indented form of a value that survives printing is read as the value. -/
theorem Portable.read_indented {v : Value} (h : Portable v) : read (indented v) = .ok v := by
  obtain ⟨c, cs, hhead, hgap, hmark, _⟩ := h.readsBack.head 0
  obtain ⟨after, hvalue⟩ := h.readsBack.value 0 (2 * (indentedAt 0 v).length + 2) 0 [] (by omega)
    closing_nil
  have hskip : skipGap 0 (indentedAt 0 v) = (0, indentedAt 0 v) := by
    rw [hhead]
    exact skipGap_of_not_gap hgap 0 cs
  have hfirst : (indentedAt 0 v).head? ≠ some '\uFEFF' := by
    rw [hhead]
    simpa using hmark
  rw [List.append_nil] at hvalue
  simp [read, readChars, indented, hfirst, hskip, hvalue, skipGap, Except.mapError]

section

variable {v : Value} {items : List Value} {field : String × Value} {fields : Fields}

theorem carriageReturn_not_mem_stringChar (c : Char) : '\r' ∉ stringChar c := by
  unfold stringChar
  cases hescape : shortEscape? c with
  | some escape =>
    obtain ⟨letter, rfl, _, hnamed⟩ := shortEscape?_eq_some hescape
    have hletter : '\r' ≠ letter := by
      rintro rfl
      simp [namedEscape?] at hnamed
    simpa using hletter
  | none =>
    have hcodes : ∀ n < 0x20, '\r' ∉ codeEscape4 n := by decide
    simp only []
    split
    · next hcontrol => exact hcodes _ hcontrol
    · have hc : '\r' ≠ c := by
        rintro rfl
        simp [shortEscape?] at hescape
      simpa using hc

theorem carriageReturn_not_mem_stringText (s : String) : '\r' ∉ stringText stringChar s := by
  simp [stringText, carriageReturn_not_mem_stringChar]

theorem carriageReturn_not_mem_indent (depth : Nat) : '\r' ∉ indent depth := by
  simp [indent]

theorem carriageReturn_not_mem_items (h : ∀ item ∈ items, ∀ depth, '\r' ∉ indentedAt depth item)
    (depth : Nat) : '\r' ∉ indentedItems depth items := by
  induction items with
  | nil => simp [indentedItems]
  | cons item items ih =>
    have hrest := ih fun other hother => h other (List.mem_cons_of_mem _ hother)
    simp [indentedItems, hrest, h item (List.mem_cons_self ..), carriageReturn_not_mem_indent]

theorem carriageReturn_not_mem_field (h : ∀ depth, '\r' ∉ indentedAt depth field.2)
    (depth : Nat) : '\r' ∉ indentedField depth field := by
  obtain ⟨name, v⟩ := field
  simp [indentedField, carriageReturn_not_mem_stringText, h]

theorem carriageReturn_not_mem_fields
    (h : ∀ field ∈ fields, ∀ depth, '\r' ∉ indentedAt depth field.2) (depth : Nat) :
    '\r' ∉ indentedFields depth fields := by
  induction fields with
  | nil => simp [indentedFields]
  | cons field fields ih =>
    have hrest := ih fun other hother => h other (List.mem_cons_of_mem _ hother)
    have hfield := carriageReturn_not_mem_field (h field (List.mem_cons_self ..)) depth
    simp [indentedFields, hrest, hfield, carriageReturn_not_mem_indent]

/-- The indented form breaks its lines by line feeds alone. -/
theorem Portable.carriageReturn_not_mem (h : Portable v) (depth : Nat) :
    '\r' ∉ indentedAt depth v := by
  induction h generalizing depth with
  | null => rw [indentedAt_scalar depth (by simp) (by simp)]; decide
  | bool b => rw [indentedAt_scalar depth (by simp) (by simp)]; cases b <;> decide
  | int _ =>
    rw [indentedAt_scalar depth (by simp) (by simp), scalarText, Numeral.toList_intText]
    exact Numeral.carriageReturn_not_mem_chars (Numeral.formed_ofInt _)
  | real hfinite _ =>
    obtain ⟨t, hformed, hchars, _⟩ := Numeral.exists_realText RealStyle.document hfinite
    rw [indentedAt_scalar depth (by simp) (by simp), scalarText, hchars]
    exact Numeral.carriageReturn_not_mem_chars hformed
  | str s =>
    rw [indentedAt_scalar depth (by simp) (by simp), scalarText]
    exact carriageReturn_not_mem_stringText s
  | @arr items _ ih =>
    cases items with
    | nil => rw [indentedAt]; decide
    | cons first more =>
      have hmore := carriageReturn_not_mem_items fun item hitem =>
        ih item (List.mem_cons_of_mem _ hitem)
      rw [indentedAt]
      simp [hmore, ih first (List.mem_cons_self ..), carriageReturn_not_mem_indent]
  | @obj fields _ _ ih =>
    cases fields with
    | nil => rw [indentedAt]; decide
    | cons first more =>
      have hfirst := carriageReturn_not_mem_field (ih first (List.mem_cons_self ..))
      have hmore := carriageReturn_not_mem_fields fun field hfield =>
        ih field (List.mem_cons_of_mem _ hfield)
      rw [indentedAt]
      simp [hmore, hfirst, carriageReturn_not_mem_indent]

end

end AuditHours.Json
