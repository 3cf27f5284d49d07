import AuditHours.Text.Character

/-!
Version declarations. A line declares the compiler version when it starts with the declaration
keyword, an optional comparison operator, three numbers with points between them and a semicolon.
The constraint of a source is the operator and numbers of its first such line.
-/
namespace AuditHours.Source

open Text

def splitLines (cs : List Char) : List (List Char) :=
  match cs with
  | [] => [[]]
  | c :: rest =>
    if c = '\n' then [] :: splitLines rest
    else match splitLines rest with
      | line :: lines => (c :: line) :: lines
      | [] => [[c]]

def dropPrefix? : List Char → List Char → Option (List Char)
  | [], cs => some cs
  | _ :: _, [] => none
  | p :: ps, c :: cs => if p = c then dropPrefix? ps cs else none

inductive Operator where
  | caret
  | tilde
  | atLeast
  | atMost
  | above
  | below
  | equal
  deriving DecidableEq, Repr

def Operator.chars : Operator → List Char
  | .caret => ['^']
  | .tilde => ['~']
  | .atLeast => ['>', '=']
  | .atMost => ['<', '=']
  | .above => ['>']
  | .below => ['<']
  | .equal => ['=']

/-- The operator at the beginning of a text, the longer one first, and what follows it. -/
def takeOperator : List Char → Option (Operator × List Char)
  | '^' :: rest => some (.caret, rest)
  | '~' :: rest => some (.tilde, rest)
  | '>' :: '=' :: rest => some (.atLeast, rest)
  | '<' :: '=' :: rest => some (.atMost, rest)
  | '>' :: rest => some (.above, rest)
  | '<' :: rest => some (.below, rest)
  | '=' :: rest => some (.equal, rest)
  | _ => none

def bareVersion (cs : List Char) : List Char :=
  match takeOperator cs with
  | some (_, rest) => rest
  | none => cs

def takeNumeral (cs : List Char) : Option (List Char × List Char) :=
  match cs.takeWhile isDecimalDigit with
  | [] => none
  | digits => some (digits, cs.dropWhile isDecimalDigit)

/-- Three numbers with points between them, up to the semicolon that must follow. -/
def takeVersion (cs : List Char) : Option (List Char) := do
  let (major, cs) ← takeNumeral cs
  let cs ← dropPrefix? ['.'] cs
  let (minor, cs) ← takeNumeral cs
  let cs ← dropPrefix? ['.'] cs
  let (patch, cs) ← takeNumeral cs
  let _ ← dropPrefix? [';'] cs
  return major ++ '.' :: minor ++ '.' :: patch

def declarationKeyword : List Char := "pragma solidity ".toList

def declared? (line : List Char) : Option (List Char) := do
  let body ← dropPrefix? declarationKeyword line
  match takeOperator body with
  | some (operator, rest) => return operator.chars ++ (← takeVersion rest)
  | none => takeVersion body

def constraint? (source : String) : Option String :=
  ((splitLines source.toList).findSome? declared?).map String.ofList

def stripOperator (constraint : String) : String :=
  String.ofList (bareVersion constraint.toList)

/-- Reading an operator gives back the text it was read from. -/
theorem takeOperator_eq {cs rest : List Char} {operator : Operator}
    (h : takeOperator cs = some (operator, rest)) : cs = operator.chars ++ rest := by
  unfold takeOperator at h
  split at h <;> simp_all [Operator.chars] <;> (obtain ⟨rfl, rfl⟩ := h; rfl)

/-- Dropping a beginning and putting it back gives the text. -/
theorem dropPrefix?_eq {p cs rest : List Char} (h : dropPrefix? p cs = some rest) :
    cs = p ++ rest := by
  fun_induction dropPrefix? p cs with
  | case1 cs => simpa using h
  | case2 => simp at h
  | case3 ps c cs ih => simp [ih h]
  | case4 => simp at h

end AuditHours.Source
