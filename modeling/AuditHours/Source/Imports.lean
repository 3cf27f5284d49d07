import AuditHours.Source.Comments
import AuditHours.Source.Pragma
import AuditHours.Text.Character

/-!
Import statements. An import starts a line, blanks apart, with its keyword; its path stands between
quotes of either kind, directly after blanks or after a clause that ends with the word `from`. The
clause holds neither quotes nor semicolons, so the path is opened by the first quote.
-/
namespace AuditHours.Source

open Text

/-- The characters that no import clause holds. -/
def endsClause (c : Char) : Bool := c == ';' || c == '"' || c == '\''

def isQuote (c : Char) : Bool := c == '"' || c == '\''

def importKeyword : List Char := "import".toList

/-- Whether the text between the keyword and the path is well formed: blanks alone, or blanks, a
clause, blanks, the word `from` and blanks. -/
def isImportClause (clause : List Char) : Bool :=
  match clause with
  | [] => false
  | c :: rest =>
    isBlank c &&
      (rest.all isBlank ||
        let reversed := rest.reverse
        let word := reversed.dropWhile isBlank
        reversed.head?.any isBlank &&
          match word with
          | 'm' :: 'o' :: 'r' :: 'f' :: b :: _ => isBlank b
          | _ => false)

/-- The path of the import statement that a line starts with, and the text behind its closing
quote. -/
def importAt? (cs : List Char) : Option (List Char × List Char) := do
  let body ← dropPrefix? importKeyword (cs.dropWhile isBlank)
  let clause := body.takeWhile fun c => !endsClause c
  match body.dropWhile fun c => !endsClause c with
  | opening :: text =>
    let path := text.takeWhile fun c => !isQuote c
    match text.dropWhile fun c => !isQuote c with
    | _ :: after =>
      if isQuote opening && isImportClause clause && !path.isEmpty then some (path, after) else none
    | [] => none
  | [] => none

def nextLine : List Char → List Char
  | [] => []
  | c :: rest => if c = '\n' then rest else nextLine rest

theorem length_nextLine_le (cs : List Char) : (nextLine cs).length ≤ cs.length := by
  induction cs with
  | nil => simp [nextLine]
  | cons c rest ih =>
    unfold nextLine
    split
    · simp
    · simp only [List.length_cons]; omega

theorem length_nextLine_lt {cs : List Char} (h : cs ≠ []) : (nextLine cs).length < cs.length := by
  cases cs with
  | nil => exact absurd rfl h
  | cons c rest =>
    unfold nextLine
    split
    · simp
    · exact Nat.lt_succ_of_le (length_nextLine_le rest)

theorem length_dropPrefix? {p cs rest : List Char} (h : dropPrefix? p cs = some rest) :
    rest.length + p.length = cs.length := by
  rw [dropPrefix?_eq h, List.length_append, Nat.add_comm]

theorem importAt?_length {cs path after : List Char} (h : importAt? cs = some (path, after)) :
    after.length < cs.length := by
  simp only [importAt?, Option.bind_eq_bind, Option.bind_eq_some_iff] at h
  obtain ⟨body, hbody, h⟩ := h
  have h1 := length_dropPrefix? hbody
  have h2 : (cs.dropWhile isBlank).length ≤ cs.length := (List.dropWhile_suffix _).length_le
  have h3 : (body.dropWhile fun c => !endsClause c).length ≤ body.length :=
    (List.dropWhile_suffix _).length_le
  split at h
  · next opening text htext =>
    have h4 : (text.dropWhile fun c => !isQuote c).length ≤ text.length :=
      (List.dropWhile_suffix _).length_le
    rw [htext] at h3
    split at h
    · next closing rest hrest =>
      rw [hrest] at h4
      split at h
      · simp only [Option.some.injEq, Prod.mk.injEq] at h
        rw [← h.2]
        simp only [List.length_cons] at h3 h4
        omega
      · simp at h
    · simp at h
  · simp at h

theorem length_nextLine_dropWhile_lt {cs : List Char} (h : cs ≠ []) :
    (nextLine (cs.dropWhile isBlank)).length < cs.length := by
  have hle : (cs.dropWhile isBlank).length ≤ cs.length := (List.dropWhile_suffix _).length_le
  by_cases hd : cs.dropWhile isBlank = []
  · rw [hd]
    exact List.length_pos_iff.2 h
  · exact Nat.lt_of_lt_of_le (length_nextLine_lt hd) hle

/-- The paths of the imports of a text that starts at the beginning of a line. Where none starts,
the search goes on behind the first line that is not blank: the blank lines before it lead to the
same keyword. -/
def importPaths (cs : List Char) : List (List Char) :=
  if _nonempty : cs = [] then []
  else match _h : importAt? cs with
    | some (path, after) => path :: importPaths (nextLine after)
    | none => importPaths (nextLine (cs.dropWhile isBlank))
  termination_by cs.length
  decreasing_by
    · exact Nat.lt_of_le_of_lt (length_nextLine_le after) (importAt?_length _h)
    · exact length_nextLine_dropWhile_lt _nonempty

def findImports (source : String) : List String :=
  (importPaths (stripped source.toList)).map String.ofList

end AuditHours.Source
