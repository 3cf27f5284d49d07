import AuditHours.Proofs.Source.LineBreaks
import AuditHours.Proofs.Source.LineSignals
import AuditHours.Text.Character

/-!
Sources whose lines end by a carriage return and a line feed. Reading such a source takes the
carriage returns away and leaves the lines in their places. A carriage return at the end of a line
stands in no marker and behind what the line may declare, so the line shows the same with and
without it.
-/
namespace AuditHours.Source

open Text

def ReturnsBeforeFeeds (cs : List Char) : Prop :=
  ∀ front back, cs = front ++ '\r' :: back → back.head? = some '\n'

namespace ReturnsBeforeFeeds

variable {c : Char} {cs : List Char}

theorem nil : ReturnsBeforeFeeds [] := by
  rintro (_ | ⟨c, front⟩) back h <;> cases h

theorem cons_iff : ReturnsBeforeFeeds (c :: cs) ↔
    (c = '\r' → cs.head? = some '\n') ∧ ReturnsBeforeFeeds cs := by
  constructor
  · intro h
    refine ⟨?_, ?_⟩
    · rintro rfl
      exact h [] cs rfl
    · rintro front back rfl
      exact h (c :: front) back rfl
  · rintro ⟨hhead, htail⟩ (_ | ⟨d, front⟩) back heq
    · obtain ⟨rfl, rfl⟩ := List.cons.inj heq
      exact hhead rfl
    · obtain ⟨rfl, rfl⟩ := List.cons.inj heq
      exact htail front back rfl

instance decidable : (cs : List Char) → Decidable (ReturnsBeforeFeeds cs)
  | [] => isTrue nil
  | _ :: cs =>
    have := decidable cs
    decidable_of_iff _ cons_iff.symm

end ReturnsBeforeFeeds

/-- A line as it is read and as it was written, which may be with a carriage return at its end. -/
def ReadAs (written line : List Char) : Prop := written = line ∨ written = line ++ ['\r']

/-- Reading leaves every line in its place. -/
theorem lines_unifyLineBreaks {cs : List Char} (h : ReturnsBeforeFeeds cs) :
    List.Forall₂ ReadAs (cs.splitOn '\n') ((unifyLineBreaks cs).splitOn '\n') := by
  fun_induction unifyLineBreaks cs with
  | case1 => simp [ReadAs]
  | case2 rest ih =>
    rw [splitOn_of_ne (by decide), splitOn_lineBreak, splitOn_lineBreak]
    have hrest := (ReturnsBeforeFeeds.cons_iff.mp (ReturnsBeforeFeeds.cons_iff.mp h).2).2
    exact List.Forall₂.cons (Or.inr rfl) (ih hrest)
  | case3 rest hfeed =>
    obtain ⟨more, rfl⟩ := List.head?_eq_some_iff.mp ((ReturnsBeforeFeeds.cons_iff.mp h).1 rfl)
    exact absurd rfl (hfeed more)
  | case4 c rest _ _ ih =>
    refine forall₂_lines_cons c (Or.inl rfl) ?_
      (ih (ReturnsBeforeFeeds.cons_iff.mp h).2)
    rintro written line (rfl | rfl)
    · exact Or.inl rfl
    · exact Or.inr rfl

/-- What takes no notice of a carriage return at the end of a line is the same of the lines as they
are read. -/
theorem map_lines_unifyLineBreaks {β : Type} {f : List Char → β} {cs : List Char}
    (h : ReturnsBeforeFeeds cs) (hf : ∀ line, f (line ++ ['\r']) = f line) :
    ((unifyLineBreaks cs).splitOn '\n').map f = (cs.splitOn '\n').map f := by
  rw [eq_comm, ← List.forall₂_eq_eq_eq, List.forall₂_map_left_iff, List.forall₂_map_right_iff]
  refine (lines_unifyLineBreaks h).imp ?_
  rintro written line (rfl | rfl)
  · rfl
  · exact hf line

/-! ### A carriage return at the end of a line -/

theorem ofChars_return (line : List Char) :
    Signals.ofChars (line ++ ['\r']) = Signals.ofChars line := by
  have hempty : Signals.ofChars [] = ⟨1, 0, 0, false, false⟩ := by decide
  rw [ofChars_seam (by decide), hempty, Signals.add_def]
  simp [Signals.ofChars]

/-- A constraint is written in digits, points and comparison signs alone. -/
theorem Constraint.not_return_mem (c : Constraint) :
    '\r' ∉ declarationKeyword ++ (c.chars ++ [';']) := by
  have hdigits : ∀ run : DigitRun, '\r' ∉ run.chars := by
    intro run hmem
    exact absurd (run.all '\r' hmem) (by decide)
  have hoperator : '\r' ∉ c.operatorChars := by
    cases hoperator : c.operator with
    | none => simp [operatorChars, hoperator]
    | some operator =>
      simp only [operatorChars, hoperator, Option.map_some, Option.getD_some]
      cases operator <;> decide
  have hkeyword : '\r' ∉ declarationKeyword := by decide
  simp [chars, VersionNumber.chars, hkeyword, hoperator, hdigits]

theorem declared?_return (line : List Char) : declared? (line ++ ['\r']) = declared? line := by
  have hdeclares : ∀ c, Declares (line ++ ['\r']) c ↔ Declares line c :=
    fun c => prefix_append_cons_iff c.not_return_mem
  refine Option.ext fun found => ?_
  simp only [declared?_eq_some_iff, hdeclares]

/-! ### Whole sources -/

theorem signals_unifyLineBreaks {cs : List Char} (h : ReturnsBeforeFeeds cs) :
    Signals.ofChars (unifyLineBreaks cs) = Signals.ofChars cs := by
  rw [ofChars_eq_sum, map_lines_unifyLineBreaks h ofChars_return, ← ofChars_eq_sum]

theorem constraint?_unifyLineBreaks {cs : List Char} (h : ReturnsBeforeFeeds cs) :
    constraint? (String.ofList (unifyLineBreaks cs)) = constraint? (String.ofList cs) := by
  have hfirst : ∀ lines : List (List Char),
      lines.findSome? declared? = (lines.map declared?).findSome? id := by
    intro lines
    rw [List.findSome?_map]
    rfl
  simp only [constraint?, String.toList_ofList, splitLines_eq, hfirst,
    map_lines_unifyLineBreaks h declared?_return]

end AuditHours.Source
