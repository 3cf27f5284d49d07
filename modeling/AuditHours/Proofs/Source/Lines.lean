import AuditHours.Proofs.Source.Statements

/-!
Imports line by line. A line that starts with a statement gives the path of the statement, and
nothing behind the path counts up to the next line break; a line that starts with anything else
gives nothing. So of statements that follow one another exactly those that begin a line are found.
-/
namespace AuditHours.Source

open Text

section

variable {cs rest line : List Char}

theorem nextLine_append (h : '\n' ∉ line) : nextLine (line ++ rest) = nextLine rest := by
  induction line with
  | nil => rfl
  | cons c line ih =>
    simp only [List.mem_cons, not_or] at h
    rw [List.cons_append, nextLine, if_neg (Ne.symm h.1), ih h.2]

@[simp]
theorem importPaths_nil : importPaths [] = [] := by
  rw [importPaths]
  rfl

theorem importPaths_of_found {path after : List Char} (h : importAt? cs = some (path, after)) :
    importPaths cs = path :: importPaths (nextLine after) := by
  have hne : cs ≠ [] := by
    rintro rfl
    cases h
  rw [importPaths, dif_neg hne]
  split
  · next heq =>
    obtain ⟨rfl, rfl⟩ : _ ∧ _ := by simpa [h] using heq
    rfl
  · next heq => simp [h] at heq

theorem importPaths_of_none (h : importAt? cs = none) :
    importPaths cs = importPaths (nextLine (cs.dropWhile isBlank)) := by
  by_cases hne : cs = []
  · subst hne
    rfl
  · rw [importPaths, dif_neg hne]
    split
    · next heq => simp [h] at heq
    · rfl

/-- Blanks in front of a text, line breaks among them, change no import. -/
theorem importPaths_blanks_append {blanks : List Char} (h : ∀ c ∈ blanks, isBlank c = true) :
    importPaths (blanks ++ cs) = importPaths cs := by
  have hstart : (blanks ++ cs).dropWhile isBlank = cs.dropWhile isBlank :=
    List.dropWhile_append_of_pos h
  have hsame : importAt? (blanks ++ cs) = importAt? cs := by simp only [importAt?, hstart]
  cases hfound : importAt? cs with
  | some found => rw [importPaths_of_found hfound, importPaths_of_found (hsame.trans hfound)]
  | none => rw [importPaths_of_none hfound, importPaths_of_none (hsame.trans hfound), hstart]

/-- A beginning without line breaks lies within the first line. -/
theorem dropPrefix?_line {p : List Char} (hp : '\n' ∉ p) (h : ¬ p <+: line) :
    dropPrefix? p (line ++ '\n' :: rest) = none := by
  refine Option.eq_none_iff_forall_ne_some.2 fun after hafter => h ?_
  have htext : line ++ '\n' :: rest = p ++ after := dropPrefix?_eq hafter
  rcases List.append_eq_append_iff.1 htext with ⟨more, rfl, hmore⟩ | ⟨more, rfl, -⟩
  · cases more with
    | nil => exact ⟨[], by simp⟩
    | cons c more =>
      obtain ⟨rfl, -⟩ := List.cons.inj hmore
      exact absurd (by simp) hp
  · exact List.prefix_append p more

/-- A line that does not start with the keyword gives no import. -/
theorem importPaths_line (hline : '\n' ∉ line)
    (h : ¬ importKeyword <+: line.dropWhile isBlank) :
    importPaths (line ++ '\n' :: rest) = importPaths rest := by
  have hblanks : ∀ c ∈ line.takeWhile isBlank, isBlank c = true :=
    List.all_eq_true.1 List.all_takeWhile
  have hbreak : ∀ c ∈ ['\n'], isBlank c = true := List.forall_mem_singleton.2 (by decide)
  obtain ⟨body, hbody⟩ : ∃ body, line.dropWhile isBlank = body := ⟨_, rfl⟩
  have hlineBody : line = line.takeWhile isBlank ++ body := by
    rw [← hbody, List.takeWhile_append_dropWhile]
  have hbodyBreak : '\n' ∉ body := fun hmem => hline (hlineBody ▸ List.mem_append_right _ hmem)
  rw [hlineBody, List.append_assoc, importPaths_blanks_append hblanks]
  cases body with
  | nil => exact importPaths_blanks_append hbreak
  | cons c body =>
    have hc : isBlank c = false := by
      simpa [hbody] using List.head?_dropWhile_not isBlank line
    have hstart : (c :: body ++ '\n' :: rest).dropWhile isBlank = c :: body ++ '\n' :: rest := by
      simp [hc]
    have hnone : importAt? (c :: body ++ '\n' :: rest) = none := by
      rw [importAt?, hstart, dropPrefix?_line (by decide) (hbody ▸ h)]
      rfl
    rw [importPaths_of_none hnone, hstart, nextLine_append hbodyBreak]
    rfl

end

/-- The paths of statements, in their order; a path without characters is none. -/
def namedPaths (statements : List Statement) : List (List Char) :=
  (statements.map fun s => s.path.chars).filter (· ≠ [])

theorem namedPaths_cons (s : Statement) (rest : List Statement) :
    namedPaths (s :: rest) = namedPaths [s] ++ namedPaths rest := by
  simp [namedPaths, List.filter_cons]
  split <;> rfl

theorem length_namedPaths_le (statements : List Statement) :
    (namedPaths statements).length ≤ statements.length := by
  simpa [namedPaths] using
    List.length_filter_le (· ≠ []) (statements.map fun s => s.path.chars)

/-- All paths are found among themselves exactly if none is empty. -/
theorem length_namedPaths_eq_iff (statements : List Statement) :
    (namedPaths statements).length = statements.length ↔ ∀ s ∈ statements, s.path.chars ≠ [] := by
  have hfilter : (namedPaths statements).length = (statements.map fun s => s.path.chars).length ↔
      ∀ path ∈ statements.map fun s => s.path.chars, decide (path ≠ []) = true :=
    List.length_filter_eq_length_iff
  simpa using hfilter

/-- A statement at the beginning of a line gives its path; the search goes on behind the line. -/
theorem importPaths_statement (s : Statement) (rest : List Char) :
    importPaths (s.chars ++ rest) = namedPaths [s] ++ importPaths (nextLine rest) := by
  have hat := s.importAt?_append rest
  by_cases hpath : s.path.chars = []
  · rw [if_pos hpath] at hat
    have hstart : (s.chars ++ rest).dropWhile isBlank = s.chars ++ rest := by
      rw [s.chars_append]
      rfl
    rw [importPaths_of_none hat, hstart, nextLine_append s.lineBreak_not_mem_chars]
    simp [namedPaths, hpath]
  · rw [if_neg hpath] at hat
    rw [importPaths_of_found hat, nextLine_append s.form.isCode_ending.2]
    simp [namedPaths, hpath]

inductive Gap where
  | blank
  | lineBreak
  deriving DecidableEq, Repr

def Gap.char : Gap → Char
  | .blank => ' '
  | .lineBreak => '\n'

def spread : List (Gap × Statement) → List Char
  | [] => []
  | (gap, s) :: rest => gap.char :: (s.chars ++ spread rest)

def lineStarts : List (Gap × Statement) → List Statement
  | [] => []
  | (.blank, _) :: rest => lineStarts rest
  | (.lineBreak, s) :: rest => s :: lineStarts rest

theorem stripped_spread (rest : List (Gap × Statement)) : stripped (spread rest) = spread rest := by
  induction rest with
  | nil =>
    rw [spread, stripped]
  | cons entry rest ih =>
    obtain ⟨gap, s⟩ := entry
    have hgap : IsCode [gap.char] := by cases gap <;> decide
    calc stripped ([gap.char] ++ (s.chars ++ spread rest))
        = [gap.char] ++ stripped (s.chars ++ spread rest) := stripped_code_append hgap
      _ = [gap.char] ++ (s.chars ++ spread rest) := by rw [s.stripped_append, ih]

/-- Behind a statement exactly the statements that begin a line are found. -/
theorem importPaths_spread (rest : List (Gap × Statement)) :
    importPaths (nextLine (spread rest)) = namedPaths (lineStarts rest) := by
  induction rest with
  | nil => exact importPaths_nil
  | cons entry rest ih =>
    obtain ⟨gap, s⟩ := entry
    cases gap with
    | blank =>
      have hline : '\n' ∉ ' ' :: s.chars := by simp [s.lineBreak_not_mem_chars]
      have hskip : nextLine (' ' :: s.chars ++ spread rest) = nextLine (spread rest) :=
        nextLine_append hline
      exact (congrArg importPaths hskip).trans ih
    | lineBreak =>
      have hstatement := importPaths_statement s (spread rest)
      rw [ih, ← namedPaths_cons] at hstatement
      exact hstatement

/-- The imports of statements on lines are the paths of those that begin a line. -/
theorem findImports_spread (s : Statement) (rest : List (Gap × Statement)) :
    findImports (String.ofList (s.chars ++ spread rest)) =
      (namedPaths (s :: lineStarts rest)).map String.ofList := by
  rw [findImports, String.toList_ofList, s.stripped_append, stripped_spread,
    importPaths_statement, importPaths_spread, ← namedPaths_cons]

def joined (gap : Gap) (statements : List Statement) : String :=
  (String.singleton gap.char).intercalate (statements.map Statement.text)

theorem joined_cons (gap : Gap) (s : Statement) (rest : List Statement) :
    joined gap (s :: rest) = String.ofList (s.chars ++ spread (rest.map (gap, ·))) := by
  induction rest generalizing s with
  | nil => simp [joined, Statement.text, spread]
  | cons next rest ih =>
    have hgap : String.singleton gap.char = String.ofList [gap.char] := rfl
    calc joined gap (s :: next :: rest)
        = s.text ++ String.singleton gap.char ++ joined gap (next :: rest) :=
          String.intercalate_cons_cons
      _ = String.ofList (s.chars ++ [gap.char] ++ (next.chars ++ spread (rest.map (gap, ·)))) := by
          rw [ih, Statement.text, hgap, ← String.ofList_append, ← String.ofList_append]
      _ = String.ofList (s.chars ++ spread ((next :: rest).map (gap, ·))) := by
          rw [List.append_assoc]
          rfl

theorem lineStarts_map (gap : Gap) (statements : List Statement) :
    lineStarts (statements.map (gap, ·)) = if gap = .lineBreak then statements else [] := by
  induction statements with
  | nil => cases gap <;> rfl
  | cons s rest ih => cases gap <;> simpa [lineStarts] using ih

/-- Joined by blanks only the first statement gives a path, joined by line breaks each does. -/
theorem findImports_joined (gap : Gap) (statements : List Statement) :
    findImports (joined gap statements) =
      (namedPaths (if gap = .lineBreak then statements else statements.take 1)).map
        String.ofList := by
  cases statements with
  | nil =>
    have hnone : findImports (joined gap []) = [] := by
      simp [findImports, joined, stripped]
    rw [hnone]
    cases gap <;> rfl
  | cons s rest =>
    rw [joined_cons, findImports_spread, lineStarts_map]
    cases gap <;> rfl

/-- Statements on one line give the path of the first and no other; on lines of their own they give
all paths, in order. So it is the same either way, with no import lost, exactly for at most one
statement, and with a path that is not empty. -/
theorem imports_kept_on_one_line_iff (statements : List Statement) :
    findImports (joined .lineBreak statements) = (namedPaths statements).map String.ofList ∧
    findImports (joined .blank statements) =
      (namedPaths (statements.take 1)).map String.ofList ∧
    (findImports (joined .blank statements) = findImports (joined .lineBreak statements) ∧
        findImports (joined .lineBreak statements) =
          statements.map (fun s => String.ofList s.path.chars) ↔
      statements.length ≤ 1 ∧ ∀ s ∈ statements, s.path.chars ≠ []) := by
  have hlines := findImports_joined .lineBreak statements
  have hline := findImports_joined .blank statements
  simp only [if_true] at hlines
  rw [if_neg (by decide)] at hline
  refine ⟨hlines, hline, ?_⟩
  rw [hlines, hline]
  constructor
  · rintro ⟨hsame, hall⟩
    have hcount : (namedPaths statements).length = statements.length := by
      simpa using congrArg List.length hall
    have hfirst : (namedPaths (statements.take 1)).length = (namedPaths statements).length := by
      simpa using congrArg List.length hsame
    have hone : (statements.take 1).length ≤ 1 := List.length_take_le ..
    have hfew := length_namedPaths_le (statements.take 1)
    exact ⟨by omega, (length_namedPaths_eq_iff statements).1 hcount⟩
  · rintro ⟨hshort, hnamed⟩
    have hall : namedPaths statements = statements.map fun s => s.path.chars := by
      refine List.filter_eq_self.2 fun path hpath => ?_
      obtain ⟨s, hs, rfl⟩ := List.mem_map.1 hpath
      simpa using hnamed s hs
    rw [List.take_of_length_le hshort, hall, List.map_map]
    exact ⟨rfl, rfl⟩

def twoImports : List Statement :=
  [⟨.all, .double, "a.sol".toList, by decide⟩, ⟨.all, .double, "b.sol".toList, by decide⟩]

/-- The second of two imports on one line is lost. -/
theorem second_import_on_line_lost :
    joined .blank twoImports = "import \"a.sol\"; import \"b.sol\";" ∧
    joined .lineBreak twoImports = "import \"a.sol\";\nimport \"b.sol\";" ∧
    findImports (joined .blank twoImports) = ["a.sol"] ∧
    findImports (joined .lineBreak twoImports) = ["a.sol", "b.sol"] :=
  ⟨by decide, by decide, findImports_joined .blank twoImports,
    findImports_joined .lineBreak twoImports⟩

end AuditHours.Source
