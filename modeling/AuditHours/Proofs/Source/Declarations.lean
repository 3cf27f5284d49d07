import AuditHours.Estimate.Pipeline

/-!
The grammar of version declarations. A line declares a constraint if it starts with the keyword, the
written constraint and a semicolon, where a constraint is an operator, which may be missing, and
three rows of digits with points between them. The reader of declarations takes exactly these, and
of a source the one on the first line that has one.
-/
namespace AuditHours.Source

open Text

structure DigitRun where
  chars : List Char
  ne_nil : chars ≠ []
  all : ∀ c ∈ chars, isDecimalDigit c = true

structure VersionNumber where
  major : DigitRun
  minor : DigitRun
  patch : DigitRun

def VersionNumber.chars (v : VersionNumber) : List Char :=
  v.major.chars ++ '.' :: (v.minor.chars ++ '.' :: v.patch.chars)

structure Constraint where
  operator : Option Operator
  version : VersionNumber

namespace Constraint

def operatorChars (c : Constraint) : List Char := (c.operator.map Operator.chars).getD []

def chars (c : Constraint) : List Char := c.operatorChars ++ c.version.chars

end Constraint

/-- A line declares a constraint if it starts with the declaration, up to its semicolon. -/
def Declares (line : List Char) (c : Constraint) : Prop :=
  declarationKeyword ++ (c.chars ++ [';']) <+: line

/-- A text declares a constraint first if a line of it does and no line before that one declares
any. -/
def DeclaresFirst (text : String) (c : Constraint) : Prop :=
  ∃ before line after, text.toList.splitOn '\n' = before ++ line :: after ∧ Declares line c ∧
    ∀ other ∈ before, ∀ d, ¬ Declares other d

def DeclaresNone (text : String) : Prop :=
  ∀ line ∈ text.toList.splitOn '\n', ∀ c, ¬ Declares line c

theorem splitLines_eq (cs : List Char) : splitLines cs = cs.splitOn '\n' := by
  induction cs with
  | nil => rfl
  | cons c cs ih =>
    rw [splitLines, List.splitOn, List.splitOnP_cons_eq_if_modifyHead, ← List.splitOn, ih]
    by_cases hc : c = '\n'
    · simp [hc]
    · cases hlines : cs.splitOn '\n' with
      | nil => exact absurd hlines (List.splitOn_ne_nil _ _)
      | cons line lines => simp [hc]

section

variable {cs rest digits : List Char}

theorem DigitRun.head (r : DigitRun) : ∃ d ds, r.chars = d :: ds ∧ isDecimalDigit d = true := by
  obtain ⟨d, ds, hchars⟩ := List.exists_cons_of_ne_nil r.ne_nil
  exact ⟨d, ds, hchars, r.all d (hchars ▸ List.mem_cons_self ..)⟩

theorem ne_of_isDecimalDigit {c d : Char} (hc : isDecimalDigit c = true)
    (hd : isDecimalDigit d = false) : c ≠ d := by
  rintro rfl
  simp [hc] at hd

/-- A row of digits is taken up to the first character that is no digit. -/
theorem takeNumeral_append (r : DigitRun) {c : Char} (hc : isDecimalDigit c = false) :
    takeNumeral (r.chars ++ c :: rest) = some (r.chars, c :: rest) := by
  obtain ⟨htake, hdrop⟩ :
      (r.chars ++ c :: rest).takeWhile isDecimalDigit = r.chars ∧
        (r.chars ++ c :: rest).dropWhile isDecimalDigit = c :: rest := span_append r.all hc
  rw [takeNumeral, htake, hdrop]
  split
  · next hnil => exact absurd hnil r.ne_nil
  · rfl

theorem takeNumeral_eq_some (h : takeNumeral cs = some (digits, rest)) :
    ∃ r : DigitRun, digits = r.chars ∧ cs = r.chars ++ rest := by
  unfold takeNumeral at h
  split at h
  · cases h
  · next hne =>
    obtain ⟨rfl, rfl⟩ := Prod.mk.inj (Option.some.inj h)
    exact ⟨⟨cs.takeWhile isDecimalDigit, hne, List.all_eq_true.1 List.all_takeWhile⟩, rfl,
      List.takeWhile_append_dropWhile.symm⟩

/-- The version that a text starts with, if a semicolon follows it. -/
theorem takeVersion_eq_some_iff {version : List Char} : takeVersion cs = some version ↔
    ∃ v : VersionNumber, v.chars ++ [';'] <+: cs ∧ version = v.chars := by
  have hpoint : isDecimalDigit '.' = false := by decide
  have hsemicolon : isDecimalDigit ';' = false := by decide
  constructor
  · intro h
    simp only [takeVersion, Option.bind_eq_bind, Option.bind_eq_some_iff, Prod.exists] at h
    obtain ⟨majorChars, afterMajor, hmajor, _, hfirst, minorChars, afterMinor, hminor, _, hsecond,
      patchChars, afterPatch, hpatch, after, hend, hversion⟩ := h
    obtain ⟨major, rfl, rfl⟩ := takeNumeral_eq_some hmajor
    obtain rfl := dropPrefix?_eq hfirst
    obtain ⟨minor, rfl, rfl⟩ := takeNumeral_eq_some hminor
    obtain rfl := dropPrefix?_eq hsecond
    obtain ⟨patch, rfl, rfl⟩ := takeNumeral_eq_some hpatch
    obtain rfl := dropPrefix?_eq hend
    refine ⟨⟨major, minor, patch⟩, ⟨after, ?_⟩, ?_⟩
    · simp [VersionNumber.chars]
    · simpa [VersionNumber.chars] using (Option.some.inj hversion).symm
  · rintro ⟨v, ⟨after, rfl⟩, rfl⟩
    simp [takeVersion, VersionNumber.chars, takeNumeral_append, dropPrefix?, hpoint, hsemicolon]

theorem takeOperator_digits (r : DigitRun) : takeOperator (r.chars ++ rest) = none := by
  obtain ⟨d, ds, hchars, hd⟩ := r.head
  rw [hchars, List.cons_append]
  unfold takeOperator
  split <;> first
    | rfl
    | next heq => exact absurd (List.cons.inj heq).1 (ne_of_isDecimalDigit hd (by decide))

/-- An operator is taken as a whole: what follows a shorter one does not make it a longer one. -/
theorem takeOperator_append (operator : Operator) (r : DigitRun) :
    takeOperator (operator.chars ++ (r.chars ++ rest)) = some (operator, r.chars ++ rest) := by
  obtain ⟨d, ds, hchars, hd⟩ := r.head
  have hequal : d ≠ '=' := ne_of_isDecimalDigit hd (by decide)
  rw [hchars]
  cases operator <;> simp [Operator.chars, takeOperator, hequal]

theorem declares_iff {line : List Char} {c : Constraint} :
    Declares line c ↔ ∃ more, line = declarationKeyword ++ (c.operatorChars ++
      (c.version.chars ++ ';' :: more)) := by
  unfold Declares
  constructor
  · rintro ⟨more, hmore⟩
    exact ⟨more, by simp [← hmore, Constraint.chars]⟩
  · rintro ⟨more, hmore⟩
    exact ⟨more, by simp [hmore, Constraint.chars]⟩

/-- A line is read as the constraint that it declares, if it declares one. -/
theorem declared?_eq_some_iff {line found : List Char} : declared? line = some found ↔
    ∃ c, Declares line c ∧ found = c.chars := by
  simp only [declares_iff, declared?, Option.bind_eq_bind, Option.bind_eq_some_iff]
  constructor
  · rintro ⟨body, hbody, h⟩
    have hline := dropPrefix?_eq hbody
    split at h
    · next operator after htaken =>
      obtain ⟨version, hversion, hfound⟩ := Option.bind_eq_some_iff.1 h
      obtain rfl := takeOperator_eq htaken
      obtain ⟨v, ⟨more, rfl⟩, rfl⟩ := takeVersion_eq_some_iff.1 hversion
      exact ⟨⟨some operator, v⟩, ⟨more, by simpa [Constraint.operatorChars] using hline⟩,
        (Option.some.inj hfound).symm⟩
    · obtain ⟨v, ⟨more, rfl⟩, rfl⟩ := takeVersion_eq_some_iff.1 h
      exact ⟨⟨none, v⟩, ⟨more, by simpa [Constraint.operatorChars] using hline⟩, rfl⟩
  · rintro ⟨⟨operator, v⟩, ⟨more, rfl⟩, rfl⟩
    have hversion : takeVersion (v.chars ++ ';' :: more) = some v.chars :=
      takeVersion_eq_some_iff.2 ⟨v, ⟨more, by simp⟩, rfl⟩
    -- The version starts with a digit, which settles what is taken as the operator.
    have hdigits : v.chars ++ ';' :: more =
        v.major.chars ++ ('.' :: (v.minor.chars ++ '.' :: v.patch.chars) ++ ';' :: more) := by
      simp [VersionNumber.chars]
    refine ⟨_, Version.dropPrefix?_append _ _, ?_⟩
    cases operator with
    | none =>
      have hnone : takeOperator (v.chars ++ ';' :: more) = none :=
        hdigits ▸ takeOperator_digits v.major
      simp [Constraint.operatorChars, Constraint.chars, hnone, hversion]
    | some operator =>
      have hsome : takeOperator (operator.chars ++ (v.chars ++ ';' :: more)) =
          some (operator, v.chars ++ ';' :: more) :=
        hdigits ▸ takeOperator_append operator v.major
      simp [Constraint.operatorChars, Constraint.chars, hsome, hversion]

theorem declared?_eq_none_iff {line : List Char} :
    declared? line = none ↔ ∀ c, ¬ Declares line c := by
  constructor
  · intro h c hc
    have hsome := declared?_eq_some_iff.2 ⟨c, hc, rfl⟩
    simp [h] at hsome
  · intro h
    refine Option.eq_none_iff_forall_ne_some.2 fun found hfound => ?_
    obtain ⟨c, hc, -⟩ := declared?_eq_some_iff.1 hfound
    exact h c hc

end

variable {text found : String}

/-- The constraint of a text is the one that it declares first. -/
theorem constraint?_eq_some_iff : constraint? text = some found ↔
    ∃ c, DeclaresFirst text c ∧ found = String.ofList c.chars := by
  simp only [constraint?, Option.map_eq_some_iff, List.findSome?_eq_some_iff, splitLines_eq]
  constructor
  · rintro ⟨chars, ⟨before, line, after, hlines, hline, hbefore⟩, rfl⟩
    obtain ⟨c, hc, rfl⟩ := declared?_eq_some_iff.1 hline
    exact ⟨c, ⟨before, line, after, hlines, hc,
      fun other hother => declared?_eq_none_iff.1 (hbefore other hother)⟩, rfl⟩
  · rintro ⟨c, ⟨before, line, after, hlines, hc, hbefore⟩, rfl⟩
    exact ⟨c.chars, ⟨before, line, after, hlines, declared?_eq_some_iff.2 ⟨c, hc, rfl⟩,
      fun other hother => declared?_eq_none_iff.2 (hbefore other hother)⟩, rfl⟩

theorem constraint?_eq_none_iff : constraint? text = none ↔ DeclaresNone text := by
  simp only [constraint?, Option.map_eq_none_iff, List.findSome?_eq_none_iff, splitLines_eq,
    declared?_eq_none_iff, DeclaresNone]

/-- Without its operator a constraint is its version, and a version is without operator. -/
theorem bareVersion_chars (c : Constraint) :
    bareVersion c.chars = c.version.chars ∧ bareVersion c.version.chars = c.version.chars := by
  obtain ⟨operator, v⟩ := c
  have hnone : takeOperator v.chars = none := takeOperator_digits v.major
  have hversion : bareVersion v.chars = v.chars := by rw [bareVersion, hnone]
  refine ⟨?_, hversion⟩
  cases operator with
  | none => exact hversion
  | some operator =>
    have hsome : takeOperator (operator.chars ++ v.chars) = some (operator, v.chars) :=
      takeOperator_append operator v.major
    change bareVersion (operator.chars ++ v.chars) = v.chars
    rw [bareVersion, hsome]

/-- The reader of declarations returns the constraint of a text and does nothing else. -/
theorem inWorld_declaredConstraint (text : String) (world : World) :
    (Estimate.declaredConstraint text).inWorld world =
      ((constraint? text).elim (.error .noDeclaration) .ok, world) := by
  unfold Estimate.declaredConstraint
  cases constraint? text <;> rfl

/-- What the reader of declarations says of a text. -/
structure ReadsDeclaration (text : String) (world : World) : Prop where
  returned : ∀ found, (Estimate.declaredConstraint text).inWorld world = (.ok found, world) ↔
    ∃ c, DeclaresFirst text c ∧ found = String.ofList c.chars
  missing : (Estimate.declaredConstraint text).inWorld world = (.error .noDeclaration, world) ↔
    DeclaresNone text
  signalled : hasVersionDeclaration text = false ↔ DeclaresNone text
  /-- A returned constraint is its operator and its version, and stripping the operator leaves the
  version, of which nothing more is stripped. -/
  parts : ∀ found, (Estimate.declaredConstraint text).inWorld world = (.ok found, world) →
    ∃ c, DeclaresFirst text c ∧ found = String.ofList (c.operatorChars ++ c.version.chars) ∧
      stripOperator found = String.ofList c.version.chars ∧
      stripOperator (stripOperator found) = stripOperator found

/-- The reader of declarations accepts exactly the grammar and takes the first declaration. -/
theorem reads_declaration (text : String) (world : World) : ReadsDeclaration text world := by
  have hread := inWorld_declaredConstraint text world
  have hreturned : ∀ found, (Estimate.declaredConstraint text).inWorld world =
      (.ok found, world) ↔ constraint? text = some found := by
    intro found
    rw [hread]
    cases constraint? text <;> simp
  have hmissing : (Estimate.declaredConstraint text).inWorld world =
      (.error .noDeclaration, world) ↔ constraint? text = none := by
    rw [hread]
    cases constraint? text <;> simp
  exact {
    returned := fun found => (hreturned found).trans constraint?_eq_some_iff
    missing := hmissing.trans constraint?_eq_none_iff
    signalled := by
      rw [hasVersionDeclaration, Option.isSome_eq_false_iff, Option.isNone_iff_eq_none,
        constraint?_eq_none_iff]
    parts := by
      intro found hfound
      obtain ⟨c, hfirst, rfl⟩ := constraint?_eq_some_iff.1 ((hreturned found).1 hfound)
      obtain ⟨hchars, hversion⟩ := bareVersion_chars c
      refine ⟨c, hfirst, rfl, ?_, ?_⟩
      · rw [stripOperator, String.toList_ofList, hchars]
      · simp only [stripOperator, String.toList_ofList, hchars, hversion]
  }

/-- A range on the first line is no declaration. -/
example : constraint? "pragma solidity >=0.8.0 <0.9.0;\npragma solidity >=0.8.1;\n" =
    some ">=0.8.1" := by
  decide +kernel

end AuditHours.Source
