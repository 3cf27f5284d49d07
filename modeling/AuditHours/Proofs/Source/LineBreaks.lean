import AuditHours.Proofs.Source.Segments
import Mathlib.Data.List.Forall2

/-!
What stripping comments leaves out of a text, well lexed or not. A token that the scan takes is a
stretch of the text, and what is kept of it lacks only characters other than line breaks. So every
line of the text stays in its place, and what is left of it is a part of the line.
-/
namespace AuditHours.Source

/-- A text with some of its characters left out, none of which is a line break. -/
inductive Thinned : List Char → List Char → Prop
  | nil : Thinned [] []
  | keep {kept cs : List Char} (c : Char) (h : Thinned kept cs) : Thinned (c :: kept) (c :: cs)
  | drop {kept cs : List Char} {c : Char} (hc : c ≠ '\n') (h : Thinned kept cs) :
      Thinned kept (c :: cs)

theorem splitOn_lineBreak (cs : List Char) :
    ('\n' :: cs).splitOn '\n' = [] :: cs.splitOn '\n' := by
  rw [List.splitOn, List.splitOnP_cons_eq_if_modifyHead]
  rfl

theorem splitOn_of_ne {c : Char} (hc : c ≠ '\n') (cs : List Char) :
    (c :: cs).splitOn '\n' = (cs.splitOn '\n').modifyHead (c :: ·) := by
  rw [List.splitOn, List.splitOnP_cons_eq_if_modifyHead, ← List.splitOn]
  simp [hc]

/-- The lines of two texts still correspond with the same character in front of both. -/
theorem forall₂_lines_cons {R : List Char → List Char → Prop} {cs cs' : List Char} (c : Char)
    (hnil : R [] []) (hcons : ∀ line line', R line line' → R (c :: line) (c :: line'))
    (h : List.Forall₂ R (cs.splitOn '\n') (cs'.splitOn '\n')) :
    List.Forall₂ R ((c :: cs).splitOn '\n') ((c :: cs').splitOn '\n') := by
  by_cases hc : c = '\n'
  · subst hc
    rw [splitOn_lineBreak, splitOn_lineBreak]
    exact List.Forall₂.cons hnil h
  · rw [splitOn_of_ne hc, splitOn_of_ne hc]
    generalize cs.splitOn '\n' = lines at h
    generalize cs'.splitOn '\n' = lines' at h
    cases h with
    | nil => exact List.Forall₂.nil
    | cons hfirst hothers => exact List.Forall₂.cons (hcons _ _ hfirst) hothers

namespace Thinned

variable {kept kept' cs cs' : List Char}

theorem refl (cs : List Char) : Thinned cs cs := by
  induction cs with
  | nil => exact nil
  | cons c cs ih => exact keep c ih

theorem append (h : Thinned kept cs) (h' : Thinned kept' cs') :
    Thinned (kept ++ kept') (cs ++ cs') := by
  induction h with
  | nil => exact h'
  | keep c _ ih => exact keep c ih
  | drop hc _ ih => exact drop hc ih

theorem of_no_break (h : '\n' ∉ cs) : Thinned [] cs := by
  induction cs with
  | nil => exact nil
  | cons c cs ih =>
    rw [List.mem_cons, not_or] at h
    exact drop (Ne.symm h.1) (ih h.2)

theorem sublist (h : Thinned kept cs) : kept.Sublist cs := by
  induction h with
  | nil => exact List.Sublist.slnil
  | keep c _ ih => exact ih.cons_cons c
  | drop _ _ ih => exact ih.cons _

/-- What is left of the first line comes from the first line. -/
theorem takeWhile_sublist (h : Thinned kept cs) :
    (kept.takeWhile (· != '\n')).Sublist (cs.takeWhile (· != '\n')) := by
  induction h with
  | nil => exact List.Sublist.slnil
  | keep c _ ih =>
    by_cases hc : c = '\n'
    · simp [hc]
    · simpa [hc] using ih
  | drop hc _ ih =>
    simpa [hc] using ih.cons _

/-- The lines of the two texts correspond, each a part of the line in its place. -/
theorem lines (h : Thinned kept cs) :
    List.Forall₂ List.Sublist (kept.splitOn '\n') (cs.splitOn '\n') := by
  induction h with
  | nil => simp
  | keep c _ ih => exact forall₂_lines_cons c (List.Sublist.refl []) (fun _ _ h => h.cons_cons c) ih
  | @drop kept cs c hc _ ih =>
    rw [splitOn_of_ne hc]
    cases hkept : kept.splitOn '\n' with
    | nil => exact absurd hkept (List.splitOn_ne_nil _ _)
    | cons first others =>
      rw [hkept] at ih
      obtain ⟨line, lines, hfirst, hothers, hlines⟩ := List.forall₂_cons_left_iff.mp ih
      rw [hlines]
      exact List.Forall₂.cons (hfirst.cons c) hothers

end Thinned

section

variable {c quote : Char} {cs rest body breaks kept after : List Char}

/-- A literal is kept as it stands. -/
theorem takeLiteral_append (h : takeLiteral quote cs = some (body, after)) :
    body ++ after = cs := by
  fun_induction takeLiteral quote cs generalizing body with
  | case1 => simp at h
  | case2 => simp at h
  | case3 c rest ih =>
    obtain ⟨⟨more, others⟩, hmore, heq⟩ := Option.map_eq_some_iff.mp h
    cases heq
    simp [ih hmore]
  | case4 rest =>
    obtain ⟨rfl, rfl⟩ : [quote] = body ∧ rest = after := by simpa using h
    rfl
  | case5 => simp at h
  | case6 c rest _ _ _ _ ih =>
    obtain ⟨⟨more, others⟩, hmore, heq⟩ := Option.map_eq_some_iff.mp h
    cases heq
    simp [ih hmore]

/-- A block comment is a stretch of text, and its line breaks are kept. -/
theorem takeBlock_thinned (h : takeBlock cs = some (breaks, after)) :
    ∃ text, cs = text ++ after ∧ Thinned breaks text := by
  fun_induction takeBlock cs generalizing breaks with
  | case1 => simp at h
  | case2 rest =>
    obtain ⟨rfl, rfl⟩ : [] = breaks ∧ rest = after := by simpa using h
    exact ⟨['*', '/'], rfl, Thinned.of_no_break (by decide)⟩
  | case3 c rest _ ih =>
    obtain ⟨⟨more, others⟩, hmore, heq⟩ := Option.map_eq_some_iff.mp h
    obtain ⟨hbreaks, rfl⟩ := Prod.mk.inj heq
    obtain ⟨text, rfl, hthinned⟩ := ih hmore
    by_cases hc : c = '\n'
    · rw [if_pos hc] at hbreaks
      rw [← hbreaks]
      exact ⟨c :: text, rfl, hthinned.keep c⟩
    · rw [if_neg hc] at hbreaks
      rw [← hbreaks]
      exact ⟨c :: text, rfl, hthinned.drop hc⟩

/-- What the scan can take where a character stands: a literal as a whole, a block comment by its
line breaks, and nothing of a line comment. -/
inductive Takes : Char → List Char → List Char → List Char → Prop
  | literal {quote : Char} {cs body after : List Char} (hquote : quote = '"' ∨ quote = '\'')
      (hbody : takeLiteral quote cs = some (body, after)) : Takes quote cs (quote :: body) after
  | block {cs breaks after : List Char} (hbreaks : takeBlock cs = some (breaks, after)) :
      Takes '/' ('*' :: cs) breaks after
  | line (cs : List Char) : Takes '/' ('/' :: cs) [] (cs.dropWhile (· != '\n'))

theorem takes_of_takeToken (h : takeToken c rest = some (kept, after)) :
    Takes c rest kept after := by
  unfold takeToken at h
  split at h
  · next hquote =>
    obtain ⟨⟨body, others⟩, hbody, heq⟩ := Option.map_eq_some_iff.mp h
    cases heq
    exact Takes.literal hquote hbody
  · split at h
    · next hslash =>
      subst hslash
      split at h
      · exact Takes.block h
      · cases h
        exact Takes.line _
      · simp at h
    · simp at h

/-- What the scan takes is a stretch of the text that starts with the character. -/
theorem Takes.thinned (h : Takes c rest kept after) :
    ∃ token, c :: rest = token ++ after ∧ Thinned kept token := by
  cases h with
  | @literal _ _ body _ hquote hbody =>
    refine ⟨c :: body, ?_, Thinned.refl _⟩
    rw [List.cons_append, takeLiteral_append hbody]
  | block hbreaks =>
    obtain ⟨text, rfl, hthinned⟩ := takeBlock_thinned hbreaks
    exact ⟨'/' :: '*' :: text, rfl, (hthinned.drop (by decide)).drop (by decide)⟩
  | line cs =>
    refine ⟨'/' :: '/' :: cs.takeWhile (· != '\n'), by simp, ?_⟩
    refine Thinned.of_no_break ?_
    intro hmem
    have hbreak : '\n' ∈ cs.takeWhile (· != '\n') := by simpa using hmem
    simpa using List.all_eq_true.mp List.all_takeWhile _ hbreak

/-- Stripping leaves out no line break, wherever the scan ends a token. -/
theorem thinned_stripped (cs : List Char) : Thinned (stripped cs) cs := by
  induction cs using stripped.induct with
  | case1 =>
    rw [stripped]
    exact Thinned.nil
  | case2 c rest kept after h ih =>
    obtain ⟨token, htoken, hthinned⟩ := (takes_of_takeToken h).thinned
    rw [stripped_of_takeToken h, htoken]
    exact hthinned.append ih
  | case3 c rest h ih =>
    rw [stripped_of_none h]
    exact ih.keep c

end

/-- Stripping comments deletes only characters that are no line breaks, from any text at all. So the
stripped text has as many lines as the text, and each of them is a part of the line in its place. -/
theorem stripComments_line_by_line (text : String) :
    Thinned (stripComments text).toList text.toList ∧
    ((stripComments text).toList.splitOn '\n').length = (text.toList.splitOn '\n').length ∧
    List.Forall₂ List.Sublist ((stripComments text).toList.splitOn '\n')
      (text.toList.splitOn '\n') := by
  have hthinned : Thinned (stripComments text).toList text.toList := by
    rw [stripComments, String.toList_ofList]
    exact thinned_stripped text.toList
  exact ⟨hthinned, hthinned.lines.length_eq, hthinned.lines⟩

end AuditHours.Source
