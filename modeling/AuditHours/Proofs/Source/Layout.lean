import AuditHours.Proofs.Source.Lines

/-!
Sources that are laid out in items: import statements with indentation and a comment behind them,
comments, and lines of code that start with something else. Each item ends with a line break. The
imports of such a source are the paths of its statements, whatever its comments hold.
-/
namespace AuditHours.Source

open Text

def IsIndentation (cs : List Char) : Prop := ∀ c ∈ cs, c = ' ' ∨ c = '\t'

instance : DecidablePred IsIndentation := fun cs => List.decidableBAll _ cs

section

variable {cs : List Char} (h : IsIndentation cs)
include h

theorem IsIndentation.isCode : IsCode cs := by
  intro c hc
  rcases h c hc with rfl | rfl <;> decide

theorem IsIndentation.isBlank : ∀ c ∈ cs, isBlank c = true := by
  intro c hc
  rcases h c hc with rfl | rfl <;> decide

theorem IsIndentation.lineBreak_not_mem : '\n' ∉ cs := by
  intro hc
  rcases h _ hc with heq | heq <;> cases heq

end

/-- What a source is laid out in. A comment behind a statement comes with the indentation in front
of it. -/
inductive Item where
  | statement (indentation : List Char) (s : Statement) (comment : Option (List Char × List Char))
  | lineComment (text : List Char)
  | blockComment (text : List Char)
  | code (line : List Char)

namespace Item

def commentChars : Option (List Char × List Char) → List Char
  | none => []
  | some (indentation, text) => indentation ++ (Segment.line text).chars

def chars : Item → List Char
  | statement indentation s comment => indentation ++ (s.chars ++ commentChars comment)
  | lineComment text => (Segment.line text).chars
  | blockComment text => (Segment.block text).chars
  | code line => line

/-- Statements have a path that is not empty, comments end where they should, and code stays on a
line that starts with another word than the keyword of imports. -/
def Formed : Item → Prop
  | statement indentation s comment => IsIndentation indentation ∧ s.path.chars ≠ [] ∧
      ∀ entry ∈ comment, IsIndentation entry.1 ∧ '\n' ∉ entry.2
  | lineComment text => '\n' ∉ text
  | blockComment text => ¬ ['*', '/'] <:+: text
  | code line => IsCode line ∧ '\n' ∉ line ∧ ¬ importKeyword <+: line.dropWhile isBlank

instance : DecidablePred Formed
  | statement indentation s comment => inferInstanceAs (Decidable (IsIndentation indentation ∧
      s.path.chars ≠ [] ∧ ∀ entry ∈ comment, IsIndentation entry.1 ∧ '\n' ∉ entry.2))
  | lineComment text => inferInstanceAs (Decidable ('\n' ∉ text))
  | blockComment text => inferInstanceAs (Decidable (¬ ['*', '/'] <:+: text))
  | code line => inferInstanceAs (Decidable
      (IsCode line ∧ '\n' ∉ line ∧ ¬ importKeyword <+: line.dropWhile isBlank))

def path? : Item → Option (List Char)
  | statement _ s _ => some s.path.chars
  | _ => none

def kept : Item → List Char
  | statement indentation s comment =>
    indentation ++ (s.chars ++ (comment.map Prod.fst).getD [])
  | blockComment text => (Segment.block text).kept
  | lineComment _ => []
  | code line => line

variable {item : Item} {rest : List Char}

/-- Comments are stripped item by item. -/
theorem stripped_append (h : item.Formed) :
    stripped (item.chars ++ '\n' :: rest) = item.kept ++ '\n' :: stripped rest := by
  have hbreak : stripped ('\n' :: rest) = '\n' :: stripped rest :=
    stripped_code_append (show IsCode ['\n'] by decide)
  cases item with
  | statement indentation s comment =>
    obtain ⟨hindentation, -, hcomment⟩ := h
    have hbehind : stripped (commentChars comment ++ '\n' :: rest) =
        (comment.map Prod.fst).getD [] ++ '\n' :: stripped rest := by
      cases comment with
      | none => exact hbreak
      | some entry =>
        obtain ⟨hgap, htext⟩ := hcomment entry rfl
        rw [commentChars, List.append_assoc, stripped_code_append hgap.isCode]
        exact congrArg _ ((stripped_line_append htext (Or.inr rfl)).trans hbreak)
    simp only [chars, kept, List.append_assoc]
    rw [stripped_code_append hindentation.isCode, s.stripped_append, hbehind]
  | lineComment text => exact (stripped_line_append h (Or.inr rfl)).trans hbreak
  | blockComment text =>
    have hblock : stripped ('/' :: '*' :: (text ++ '*' :: '/' :: '\n' :: rest)) =
        (Segment.block text).kept ++ stripped ('\n' :: rest) := stripped_block_append h
    rw [hbreak] at hblock
    simpa [chars, kept, Segment.chars] using hblock
  | code line => exact (stripped_code_append h.1).trans (congrArg _ hbreak)

/-- What is left of an item gives the path of its statement. -/
theorem importPaths_kept (h : item.Formed) :
    importPaths (item.kept ++ '\n' :: rest) = item.path?.toList ++ importPaths rest := by
  have hbreak : ∀ c ∈ ['\n'], isBlank c = true := List.forall_mem_singleton.2 (by decide)
  cases item with
  | statement indentation s comment =>
    obtain ⟨hindentation, hpath, hcomment⟩ := h
    have hgap : '\n' ∉ (comment.map Prod.fst).getD [] := by
      cases comment with
      | none => simp
      | some entry => exact (hcomment entry rfl).1.lineBreak_not_mem
    simp only [kept, List.append_assoc]
    rw [importPaths_blanks_append hindentation.isBlank, importPaths_statement,
      nextLine_append hgap]
    simp [namedPaths, hpath, path?, nextLine]
  | lineComment text => exact importPaths_blanks_append hbreak
  | blockComment text =>
    have hblank : ∀ c ∈ (blockComment text).kept, isBlank c = true := by
      intro c hc
      obtain rfl := List.eq_of_mem_replicate hc
      decide
    exact (importPaths_blanks_append hblank).trans (importPaths_blanks_append hbreak)
  | code line => exact importPaths_line h.2.1 h.2.2

end Item

def laidOut (items : List Item) : String :=
  String.ofList (items.flatMap fun item => item.chars ++ ['\n'])

/-- The imports of a source that is laid out in items are the paths of its statements, in order. -/
theorem findImports_laidOut (items : List Item) (h : ∀ item ∈ items, item.Formed) :
    findImports (laidOut items) = (items.filterMap Item.path?).map String.ofList := by
  have hpaths : importPaths (stripped (items.flatMap fun item => item.chars ++ ['\n'])) =
      items.filterMap Item.path? := by
    induction items with
    | nil => simp [stripped]
    | cons item items ih =>
      obtain ⟨hitem, hitems⟩ := List.forall_mem_cons.1 h
      rw [List.flatMap_cons, List.append_assoc, List.singleton_append, Item.stripped_append hitem,
        Item.importPaths_kept hitem, ih hitems, List.filterMap_cons]
      cases item.path? <;> rfl
  rw [findImports, laidOut, String.toList_ofList, hpaths]

/-- Imports within comments, comment markers within paths, and the word before a path as a name. -/
def mixedItems : List Item :=
  [.blockComment "\nimport 'o';\n".toList,
    .statement "\t".toList ⟨.members [(⟨"E".toList, by decide⟩, some ⟨"$1".toList, by decide⟩)],
      .double, "./A/*b*/".toList, by decide⟩ (some (" ".toList, "'x".toList)),
    .code " c \x7b".toList,
    .statement [] ⟨.starAs ⟨"from".toList, by decide⟩, .single, "l//M".toList, by decide⟩ none]

theorem findImports_mixedItems : (∀ item ∈ mixedItems, item.Formed) ∧
    findImports ("/*\nimport 'o';\n*/\n\timport \x7bE as $1\x7d from \"./A/*b*/\"; //'x\n" ++
      " c \x7b\nimport * as from from 'l//M';\n") = ["./A/*b*/", "l//M"] := by
  have htext : laidOut mixedItems =
      "/*\nimport 'o';\n*/\n\timport \x7bE as $1\x7d from \"./A/*b*/\"; //'x\n" ++
        " c \x7b\nimport * as from from 'l//M';\n" := by
    decide
  exact ⟨by decide, htext ▸ findImports_laidOut mixedItems (by decide)⟩

end AuditHours.Source
