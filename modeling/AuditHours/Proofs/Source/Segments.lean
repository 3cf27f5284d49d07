import AuditHours.Source.Comments
import Mathlib.Data.List.Infix

/-!
Sources in segments. A source that is well lexed is a row of code, string literals and comments, in
which a line comment goes on up to a line break and every other segment closes itself. Whatever the
literals and comments hold, no literal or comment that the stripping of comments finds goes beyond
the segment that it starts with.
-/
namespace AuditHours.Source

inductive Quote where
  | double
  | single
  deriving DecidableEq, Repr

def Quote.char : Quote → Char
  | .double => '"'
  | .single => '\''

/-- What the body of a string literal is made of: single characters, and pairs of a backslash and
any character. -/
inductive Piece where
  | plain (c : Char)
  | escape (c : Char)
  deriving DecidableEq, Repr

def Piece.chars : Piece → List Char
  | .plain c => [c]
  | .escape c => ['\\', c]

def Piece.FitsIn (quote : Quote) : Piece → Prop
  | .plain c => c ≠ quote.char ∧ c ≠ '\\' ∧ c ≠ '\n'
  | .escape _ => True

instance (quote : Quote) : DecidablePred (Piece.FitsIn quote)
  | .plain c => inferInstanceAs (Decidable (c ≠ quote.char ∧ c ≠ '\\' ∧ c ≠ '\n'))
  | .escape _ => inferInstanceAs (Decidable True)

def IsCode (cs : List Char) : Prop := ∀ c ∈ cs, c ≠ '"' ∧ c ≠ '\'' ∧ c ≠ '/'

instance : DecidablePred IsCode := fun cs => List.decidableBAll _ cs

/-- A part of a source: code, a string literal, a block comment or a line comment, each by what
stands between its delimiters. -/
inductive Segment where
  | code (cs : List Char)
  | literal (quote : Quote) (body : List Piece)
  | block (text : List Char)
  | line (text : List Char)
  deriving DecidableEq, Repr

namespace Segment

def chars : Segment → List Char
  | code cs => cs
  | literal quote body => quote.char :: (body.flatMap Piece.chars ++ [quote.char])
  | block text => '/' :: '*' :: (text ++ ['*', '/'])
  | line text => '/' :: '/' :: text

def kept : Segment → List Char
  | block text => List.replicate (text.count '\n') '\n'
  | line _ => []
  | other => other.chars

/-- A segment holds no end of its own before its last character. -/
def Formed : Segment → Prop
  | code cs => IsCode cs
  | literal quote body => ∀ piece ∈ body, piece.FitsIn quote
  | block text => ¬ ['*', '/'] <:+: text
  | line text => '\n' ∉ text

instance : DecidablePred Formed
  | code cs => inferInstanceAs (Decidable (IsCode cs))
  | literal quote body => inferInstanceAs (Decidable (∀ piece ∈ body, piece.FitsIn quote))
  | block text => inferInstanceAs (Decidable (¬ ['*', '/'] <:+: text))
  | line text => inferInstanceAs (Decidable ('\n' ∉ text))

/-- A line comment is the last segment or goes before code that starts with a line break. -/
def Closes : Segment → List Segment → Prop
  | line _, [] => True
  | line _, code cs :: _ => cs.head? = some '\n'
  | line _, _ => False
  | _, _ => True

instance : ∀ (segment : Segment) (next : List Segment), Decidable (segment.Closes next)
  | line _, [] => inferInstanceAs (Decidable True)
  | line _, code cs :: _ => inferInstanceAs (Decidable (cs.head? = some '\n'))
  | line _, literal .. :: _ => inferInstanceAs (Decidable False)
  | line _, block _ :: _ => inferInstanceAs (Decidable False)
  | line _, line _ :: _ => inferInstanceAs (Decidable False)
  | code _, _ => inferInstanceAs (Decidable True)
  | literal .., _ => inferInstanceAs (Decidable True)
  | block _, _ => inferInstanceAs (Decidable True)

end Segment

/-- Segments that follow one another as the lexical rules allow it. -/
def WellLexed : List Segment → Prop
  | [] => True
  | segment :: rest => segment.Formed ∧ segment.Closes rest ∧ WellLexed rest

instance wellLexedDecidable : DecidablePred WellLexed
  | [] => inferInstanceAs (Decidable True)
  | segment :: rest =>
    have := wellLexedDecidable rest
    inferInstanceAs (Decidable (segment.Formed ∧ segment.Closes rest ∧ WellLexed rest))

section

variable {cs rest text : List Char}

theorem stripped_of_takeToken {c : Char} {kept after : List Char}
    (h : takeToken c rest = some (kept, after)) :
    stripped (c :: rest) = kept ++ stripped after := by
  rw [stripped]
  split
  · next heq =>
    obtain ⟨rfl, rfl⟩ : _ ∧ _ := by simpa [h] using heq
    rfl
  · next heq => simp [h] at heq

theorem stripped_of_none {c : Char} (h : takeToken c rest = none) :
    stripped (c :: rest) = c :: stripped rest := by
  rw [stripped]
  split
  · next heq => simp [h] at heq
  · rfl

theorem stripped_code_append (h : IsCode cs) : stripped (cs ++ rest) = cs ++ stripped rest := by
  induction cs with
  | nil => rfl
  | cons c cs ih =>
    obtain ⟨hdouble, hsingle, hslash⟩ := h c (List.mem_cons_self ..)
    have hnone : takeToken c (cs ++ rest) = none := by
      simp [takeToken, hdouble, hsingle, hslash]
    have hcode : IsCode cs := fun other hother => h other (List.mem_cons_of_mem _ hother)
    rw [List.cons_append, stripped_of_none hnone, ih hcode, List.cons_append]

/-- A literal is taken up to its closing quote. -/
theorem takeLiteral_pieces {quote : Quote} {body : List Piece}
    (h : ∀ piece ∈ body, piece.FitsIn quote) :
    takeLiteral quote.char (body.flatMap Piece.chars ++ quote.char :: rest) =
      some (body.flatMap Piece.chars ++ [quote.char], rest) := by
  induction body with
  | nil => cases quote <;> simp [takeLiteral, Quote.char]
  | cons piece body ih =>
    have hbody := ih fun other hother => h other (List.mem_cons_of_mem _ hother)
    cases piece with
    | escape c => simp [Piece.chars, takeLiteral, hbody]
    | plain c =>
      obtain ⟨hquote, hslash, hbreak⟩ := h _ (List.mem_cons_self ..)
      rw [List.flatMap_cons, Piece.chars, List.append_assoc, List.singleton_append, takeLiteral]
      · simp [hquote, hbreak, hbody]
      · exact fun hc _ => hslash hc
      · exact fun _ _ hc _ => hslash hc

theorem stripped_literal_append {quote : Quote} {body : List Piece}
    (h : ∀ piece ∈ body, piece.FitsIn quote) :
    stripped (quote.char :: (body.flatMap Piece.chars ++ quote.char :: rest)) =
      quote.char :: (body.flatMap Piece.chars ++ quote.char :: stripped rest) := by
  have hopens : quote.char = '"' ∨ quote.char = '\'' := by cases quote <;> simp [Quote.char]
  have htaken : takeToken quote.char (body.flatMap Piece.chars ++ quote.char :: rest) =
      some (quote.char :: (body.flatMap Piece.chars ++ [quote.char]), rest) := by
    simp [takeToken, hopens, takeLiteral_pieces h]
  rw [stripped_of_takeToken htaken]
  simp

/-- A block comment is taken up to the first end behind its opener. -/
theorem takeBlock_append (h : ¬ ['*', '/'] <:+: text) :
    takeBlock (text ++ '*' :: '/' :: rest) =
      some (List.replicate (text.count '\n') '\n', rest) := by
  induction text with
  | nil => rfl
  | cons c text ih =>
    rw [List.infix_cons_iff, not_or] at h
    -- No marker ends the comment at this place: it would stand inside the text.
    have hopen : ∀ more, c = '*' → text ++ '*' :: '/' :: rest ≠ '/' :: more := by
      rintro more rfl heq
      cases text with
      | nil => simp at heq
      | cons d text =>
        obtain ⟨rfl, -⟩ := List.cons.inj heq
        exact h.1 ⟨text, rfl⟩
    rw [List.cons_append, takeBlock, ih h.2]
    · by_cases hc : c = '\n'
      · simp [hc, List.replicate_succ]
      · simp [hc]
    · exact hopen

theorem stripped_block_append (h : ¬ ['*', '/'] <:+: text) :
    stripped ('/' :: '*' :: (text ++ '*' :: '/' :: rest)) =
      List.replicate (text.count '\n') '\n' ++ stripped rest :=
  stripped_of_takeToken (takeBlock_append h)

theorem stripped_line_append (h : '\n' ∉ text) (hrest : rest = [] ∨ rest.head? = some '\n') :
    stripped ('/' :: '/' :: (text ++ rest)) = stripped rest := by
  have htext : ∀ c ∈ text, (c != '\n') = true := by
    intro c hc
    simpa using ne_of_mem_of_not_mem hc h
  have hstop : rest.dropWhile (· != '\n') = rest := by
    rcases hrest with rfl | hhead
    · rfl
    · obtain ⟨more, rfl⟩ := List.head?_eq_some_iff.1 hhead
      rfl
  have htaken : takeToken '/' ('/' :: (text ++ rest)) = some ([], rest) := by
    simp [takeToken, List.dropWhile_append_of_pos htext, hstop]
  exact stripped_of_takeToken htaken

end

def written (segments : List Segment) : List Char := segments.flatMap Segment.chars

theorem Segment.Closes.head {text : List Char} {next : List Segment}
    (h : (Segment.line text).Closes next) :
    written next = [] ∨ (written next).head? = some '\n' := by
  cases next with
  | nil => exact Or.inl rfl
  | cons segment next =>
    cases segment with
    | code cs =>
      obtain ⟨more, rfl⟩ := List.head?_eq_some_iff.1 h
      exact Or.inr rfl
    | literal | block | line => exact absurd h id

/-- A segment is stripped apart from what follows it. -/
theorem Segment.stripped_append {segment : Segment} {next : List Segment} (h : segment.Formed)
    (hnext : segment.Closes next) :
    stripped (segment.chars ++ written next) = segment.kept ++ stripped (written next) := by
  cases segment with
  | code cs => exact stripped_code_append h
  | literal quote body => simpa [chars, kept] using stripped_literal_append h
  | block text => simpa [chars, kept] using stripped_block_append h
  | line text => exact stripped_line_append h hnext.head

/-- Stripping comments goes segment by segment: code and literals stay as they are, line comments
vanish, and a block comment turns into as many line breaks as it holds. -/
theorem stripComments_segments (segments : List Segment) (h : WellLexed segments) :
    stripComments (String.ofList (written segments)) =
      String.ofList (segments.flatMap Segment.kept) := by
  have hstripped : stripped (written segments) = segments.flatMap Segment.kept := by
    induction segments with
    | nil => simp [written, stripped]
    | cons segment rest ih =>
      obtain ⟨hformed, hcloses, hrest⟩ := h
      exact (Segment.stripped_append hformed hcloses).trans (congrArg _ (ih hrest))
  rw [stripComments, String.toList_ofList, hstripped]

/-- Markers of comments in literals, quotes in comments, and comments whose text touches their
delimiters. -/
def nestedMarkers : List Segment :=
  [.code "import ".toList, .literal .double [.plain '/', .plain '*', .escape '"', .escape '\n'],
    .code "; ".toList, .block "/ it's\n *".toList,
    .literal .single [.plain '"', .plain '/', .plain '/'],
    .line " \"*/".toList, .code "\n\x7d".toList]

theorem stripComments_nestedMarkers : WellLexed nestedMarkers ∧
    stripComments "import \"/*\\\"\\\n\"; /*/ it's\n **/'\"//'// \"*/\n\x7d" =
      "import \"/*\\\"\\\n\"; \n'\"//'\n\x7d" :=
  ⟨by decide, stripComments_segments nestedMarkers (by decide)⟩

end AuditHours.Source
