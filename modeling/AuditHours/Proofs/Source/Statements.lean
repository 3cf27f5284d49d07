import AuditHours.Proofs.Source.Segments
import AuditHours.Source.Imports
import AuditHours.Version.Build

/-!
Import statements. A statement has one of four forms; its path stands between quotes and is the only
literal in it. Stripping comments leaves a statement as it is, and the search for imports takes its
path from a line that starts with it and goes on behind the next line break.
-/
namespace AuditHours.Source

open Text

/-- The characters of names. Letters and digits of every script, `_` and `$` are among them. -/
def isNameChar (c : Char) : Bool := !isBlank c && !endsClause c && c != '/'

structure Name where
  chars : List Char
  formed : chars.all isNameChar = true

def isPathChar (c : Char) : Bool := !isQuote c && c != '\\' && c != '\n'

structure QuotedPath where
  chars : List Char
  formed : chars.all isPathChar = true

/-- What an import statement brings into scope: everything, everything under one name, with the name
behind or in front of the path, or some members, each perhaps under a name of its own. -/
inductive Form where
  | all
  | allAs (name : Name)
  | starAs (name : Name)
  | members (names : List (Name × Option Name))

def asWord : List Char := " as ".toList

def fromWord : List Char := " from ".toList

def memberChars : Name × Option Name → List Char
  | (name, none) => name.chars
  | (name, some own) => name.chars ++ asWord ++ own.chars

namespace Form

/-- What stands between the keyword and the opening quote of the path. -/
def clause : Form → List Char
  | all => [' ']
  | allAs _ => [' ']
  | starAs name => [' ', '*'] ++ asWord ++ name.chars ++ fromWord
  | members names =>
    [' ', '{'] ++ [',', ' '].intercalate (names.map memberChars) ++ ['}'] ++ fromWord

def ending : Form → List Char
  | allAs name => asWord ++ name.chars ++ [';']
  | _ => [';']

end Form

structure Statement where
  form : Form
  quote : Quote
  path : QuotedPath

def Statement.chars (s : Statement) : List Char :=
  importKeyword ++ (s.form.clause ++
    s.quote.char :: (s.path.chars ++ s.quote.char :: s.form.ending))

def Statement.text (s : Statement) : String := String.ofList s.chars

def isPlain (c : Char) : Bool := !endsClause c && c != '/' && c != '\n'

def IsPlain (cs : List Char) : Prop := ∀ c ∈ cs, isPlain c = true

instance : DecidablePred IsPlain := fun cs => List.decidableBAll _ cs

section

variable {cs ds : List Char}

theorem IsPlain.append (hcs : IsPlain cs) (hds : IsPlain ds) : IsPlain (cs ++ ds) :=
  List.forall_mem_append.2 ⟨hcs, hds⟩

theorem IsPlain.isCode (h : IsPlain cs) : IsCode cs := by
  intro c hc
  have hplain := h c hc
  simp only [isPlain, endsClause, Bool.and_eq_true, Bool.not_eq_true', Bool.or_eq_false_iff,
    beq_eq_false_iff_ne, bne_iff_ne] at hplain
  exact ⟨hplain.1.1.1.2, hplain.1.1.2, hplain.1.2⟩

theorem IsPlain.lineBreak_not_mem (h : IsPlain cs) : '\n' ∉ cs := fun hmem => by
  simpa [isPlain] using h _ hmem

theorem IsPlain.intercalate {parts : List (List Char)} (hcs : IsPlain cs)
    (hparts : ∀ part ∈ parts, IsPlain part) : IsPlain (cs.intercalate parts) := by
  induction parts with
  | nil => simp [IsPlain]
  | cons part parts ih =>
    cases parts with
    | nil => simpa using hparts
    | cons next parts =>
      rw [List.intercalate_cons_cons]
      have hpart : IsPlain part := hparts part (List.mem_cons_self ..)
      exact (hpart.append hcs).append
        (ih fun other hother => hparts other (List.mem_cons_of_mem _ hother))

end

theorem Name.isPlain (name : Name) : IsPlain name.chars := by
  intro c hc
  have hname := List.all_eq_true.1 name.formed c hc
  simp only [isNameChar, Bool.and_eq_true, Bool.not_eq_true', bne_iff_ne] at hname
  obtain ⟨⟨hblank, hclause⟩, hslash⟩ := hname
  have hbreak : c ≠ '\n' := by
    rintro rfl
    simp [show isBlank '\n' = true by decide] at hblank
  simp [Source.isPlain, hclause, hslash, hbreak]

theorem isPlain_asWord : IsPlain asWord := by decide

theorem isPlain_memberChars (member : Name × Option Name) : IsPlain (memberChars member) := by
  rcases member with ⟨name, _ | own⟩
  · exact name.isPlain
  · exact (name.isPlain.append isPlain_asWord).append own.isPlain

namespace Form

variable (form : Form)

/-- A clause holds only plain characters, so it opens no literal and stays on its line. -/
theorem isPlain_clause : IsPlain form.clause := by
  have hfrom : IsPlain fromWord := by decide
  cases form with
  | all | allAs => exact (show IsPlain [' '] by decide)
  | starAs name =>
    have hstar : IsPlain [' ', '*'] := by decide
    exact ((hstar.append isPlain_asWord).append name.isPlain).append hfrom
  | members names =>
    have hopening : IsPlain [' ', '{'] := by decide
    have hclosing : IsPlain ['}'] := by decide
    have hcomma : IsPlain [',', ' '] := by decide
    have hmembers : IsPlain ([',', ' '].intercalate (names.map memberChars)) := by
      refine hcomma.intercalate fun part hpart => ?_
      obtain ⟨member, -, rfl⟩ := List.mem_map.1 hpart
      exact isPlain_memberChars member
    exact ((hopening.append hmembers).append hclosing).append hfrom

/-- An ending is code on one line. -/
theorem isCode_ending : IsCode form.ending ∧ '\n' ∉ form.ending := by
  have hsemicolon : IsCode [';'] ∧ '\n' ∉ [';'] := by decide
  cases form with
  | allAs name =>
    have hplain : IsPlain (asWord ++ name.chars) := isPlain_asWord.append name.isPlain
    refine ⟨List.forall_mem_append.2 ⟨hplain.isCode, hsemicolon.1⟩, fun hmem => ?_⟩
    exact (List.mem_append.1 hmem).elim hplain.lineBreak_not_mem hsemicolon.2
  | all | starAs | members => exact hsemicolon

/-- Whatever the clause says before it, it may end with the word that introduces the path. -/
theorem isImportClause_from (middle : List Char) :
    isImportClause (' ' :: (middle ++ fromWord)) = true := by
  have hblank : isBlank ' ' = true := by decide
  have hletter : isBlank 'm' = false := by decide
  have hreversed : (middle ++ fromWord).reverse =
      ' ' :: 'm' :: 'o' :: 'r' :: 'f' :: ' ' :: middle.reverse := List.reverse_append
  simp [isImportClause, hreversed, hblank, hletter]

theorem isImportClause_clause : isImportClause form.clause = true := by
  cases form with
  | all | allAs => exact (show isImportClause [' '] = true by decide)
  | starAs name => exact isImportClause_from (['*'] ++ asWord ++ name.chars)
  | members names =>
    exact isImportClause_from (['{'] ++ [',', ' '].intercalate (names.map memberChars) ++ ['}'])

end Form

namespace Statement

variable (s : Statement) (rest : List Char)

theorem chars_append : s.chars ++ rest = importKeyword ++ (s.form.clause ++ s.quote.char ::
    (s.path.chars ++ s.quote.char :: (s.form.ending ++ rest))) := by
  simp only [chars, List.append_assoc, List.cons_append]

/-- A statement stays on its line. -/
theorem lineBreak_not_mem_chars : '\n' ∉ s.chars := by
  have hkeyword : '\n' ∉ importKeyword := by decide
  have hclause : '\n' ∉ s.form.clause := s.form.isPlain_clause.lineBreak_not_mem
  have hpath : '\n' ∉ s.path.chars := fun hmem => by
    simpa [isPathChar] using List.all_eq_true.1 s.path.formed _ hmem
  have hquote : s.quote.char ≠ '\n' := by cases s.quote <;> decide
  have hending := s.form.isCode_ending.2
  simp only [chars, List.mem_append, List.mem_cons, not_or]
  exact ⟨hkeyword, hclause, hquote.symm, hpath, hquote.symm, hending⟩

/-- Stripping comments leaves a statement as it is, whatever its path looks like. -/
theorem stripped_append : stripped (s.chars ++ rest) = s.chars ++ stripped rest := by
  have hpath : ∀ piece ∈ s.path.chars.map Piece.plain, piece.FitsIn s.quote := by
    intro piece hpiece
    obtain ⟨c, hc, rfl⟩ := List.mem_map.1 hpiece
    have hformed := List.all_eq_true.1 s.path.formed c hc
    simp only [isPathChar, isQuote, Bool.and_eq_true, Bool.not_eq_true', Bool.or_eq_false_iff,
      beq_eq_false_iff_ne, bne_iff_ne] at hformed
    obtain ⟨⟨⟨hdouble, hsingle⟩, hslash⟩, hbreak⟩ := hformed
    refine ⟨?_, hslash, hbreak⟩
    cases s.quote
    · exact hdouble
    · exact hsingle
  have hchars : (s.path.chars.map Piece.plain).flatMap Piece.chars = s.path.chars := by
    simp [List.flatMap_map, Piece.chars]
  have hliteral : stripped (s.quote.char :: (s.path.chars ++ s.quote.char ::
      (s.form.ending ++ rest))) = s.quote.char :: (s.path.chars ++ s.quote.char ::
      stripped (s.form.ending ++ rest)) := by
    simpa only [hchars] using stripped_literal_append hpath
  have hkeyword : IsCode importKeyword := by decide
  rw [chars_append, stripped_code_append hkeyword,
    stripped_code_append s.form.isPlain_clause.isCode, hliteral,
    stripped_code_append s.form.isCode_ending.1, chars_append]

/-- The import at a line that starts with a statement is the path of the statement; without a path
there is none. -/
theorem importAt?_append : importAt? (s.chars ++ rest) =
    if s.path.chars = [] then none else some (s.path.chars, s.form.ending ++ rest) := by
  have hstart : (s.chars ++ rest).dropWhile isBlank = s.chars ++ rest := by
    rw [chars_append]
    rfl
  have hquote : endsClause s.quote.char = true ∧ isQuote s.quote.char = true := by
    cases s.quote <;> decide
  have hopens : (!endsClause s.quote.char) = false := by simp [hquote]
  have hcloses : (!isQuote s.quote.char) = false := by simp [hquote]
  have hclause : ∀ c ∈ s.form.clause, (!endsClause c) = true := by
    intro c hc
    have hplain := s.form.isPlain_clause c hc
    simp only [isPlain, Bool.and_eq_true] at hplain
    exact hplain.1.1
  have hpath : ∀ c ∈ s.path.chars, (!isQuote c) = true := by
    intro c hc
    have hformed := List.all_eq_true.1 s.path.formed c hc
    simp only [isPathChar, Bool.and_eq_true] at hformed
    exact hformed.1.1
  rw [importAt?, hstart, chars_append, Version.dropPrefix?_append]
  simp only [Option.bind_eq_bind, Option.bind_some, span_append hclause hopens,
    span_append hpath hcloses, hquote, s.form.isImportClause_clause]
  by_cases hnone : s.path.chars = []
  · rw [if_pos hnone, hnone]
    rfl
  · rw [if_neg hnone, if_pos (by simpa using hnone)]

end Statement

end AuditHours.Source
