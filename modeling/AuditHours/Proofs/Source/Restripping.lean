import AuditHours.Proofs.Source.LineBreaks
import Mathlib.Data.List.Chain

/-!
Stripping a text twice. Where a text holds no backslash, the scan of what stripping leaves of it
comes upon the same characters and the same string literals as before, and upon the line breaks of a
comment in place of the comment. A quote without its partner stays without one, because its line
only loses characters. A slash that opens no comment opens none afterwards, because a comment that
goes away begins with a slash itself: had it followed a slash or a star, it would not have begun
there.
-/
namespace AuditHours.Source

/-- What the scan for comments comes upon: a character by itself, a string literal, or a comment, of
which only the line breaks are told. -/
inductive Lexeme where
  | plain (c : Char)
  | literal (chars : List Char)
  | comment (breaks : List Char)
  deriving DecidableEq, Repr

def lexemes : List Char → List Lexeme
  | [] => []
  | c :: rest =>
    match _h : takeToken c rest with
    | some (kept, after) => (if c = '/' then .comment kept else .literal kept) :: lexemes after
    | none => .plain c :: lexemes rest
  termination_by cs => cs.length
  decreasing_by
    · exact Nat.lt_succ_of_le (takeToken_length _h)
    · exact Nat.lt_succ_self _

namespace Lexeme

def kept : Lexeme → List Char
  | plain c => [c]
  | literal chars => chars
  | comment breaks => breaks

def uncommented : Lexeme → List Lexeme
  | comment breaks => breaks.map plain
  | other => [other]

theorem flatMap_kept_uncommented (l : Lexeme) : l.uncommented.flatMap kept = l.kept := by
  cases l with
  | plain c => rfl
  | literal chars => simp [uncommented, kept]
  | comment breaks =>
    show (breaks.map plain).flatMap kept = breaks
    induction breaks with
    | nil => rfl
    | cons c breaks ih => simpa [kept] using ih

end Lexeme

section

variable {c quote : Char} {cs rest body breaks kept after other : List Char}

theorem lexemes_nil : lexemes [] = [] := by rw [lexemes]

theorem lexemes_of_some (h : takeToken c rest = some (kept, after)) :
    lexemes (c :: rest) = (if c = '/' then .comment kept else .literal kept) :: lexemes after := by
  rw [lexemes]
  split
  · next heq =>
    obtain ⟨rfl, rfl⟩ : _ ∧ _ := by simpa [h] using heq
    rfl
  · next heq => simp [h] at heq

theorem lexemes_of_none (h : takeToken c rest = none) :
    lexemes (c :: rest) = .plain c :: lexemes rest := by
  rw [lexemes]
  split
  · next heq => simp [h] at heq
  · rfl

/-- Stripping keeps of each lexeme what there is to keep. -/
theorem stripped_eq_flatMap (cs : List Char) : stripped cs = (lexemes cs).flatMap Lexeme.kept := by
  induction cs using stripped.induct with
  | case1 => rw [stripped, lexemes_nil, List.flatMap_nil]
  | case2 c rest kept after h ih =>
    rw [stripped_of_takeToken h, lexemes_of_some h, List.flatMap_cons, ih]
    by_cases hc : c = '/' <;> simp [hc, Lexeme.kept]
  | case3 c rest h ih =>
    rw [stripped_of_none h, lexemes_of_none h, List.flatMap_cons, ih]
    rfl

/-! ### Where a token begins -/

/-- Without backslashes a quote opens a literal exactly if there is another one on its line. -/
theorem takeLiteral_eq_none_iff (hquote : quote ≠ '\n') (h : '\\' ∉ cs) :
    takeLiteral quote cs = none ↔ quote ∉ cs.takeWhile (· != '\n') := by
  fun_induction takeLiteral quote cs with
  | case1 => simp
  | case2 => simp at h
  | case3 => simp at h
  | case4 => simp [hquote]
  | case5 => simp
  | case6 c rest _ _ hc hbreak ih =>
    have hrest : '\\' ∉ rest := fun hmem => h (List.mem_cons_of_mem _ hmem)
    simp [hbreak, Ne.symm hc, ih hrest]

theorem takeLiteral_cons (hc : c ≠ '\\') : takeLiteral quote (c :: rest) =
    if c = quote then some ([c], rest)
    else if c = '\n' then none
    else (takeLiteral quote rest).map fun (body, after) => (c :: body, after) := by
  rw [takeLiteral]
  · exact fun heq _ => hc heq
  · exact fun _ _ heq _ => hc heq

/-- What the scan of a literal takes by itself is no backslash. -/
theorem ne_backslash (hlast : c = '\\' → rest = [] → False)
    (hpair : ∀ d others, c = '\\' → rest = d :: others → False) : c ≠ '\\' := by
  intro heq
  cases rest with
  | nil => exact hlast heq rfl
  | cons d others => exact hpair d others heq rfl

/-- A literal is taken alike whatever stands behind its closing quote. -/
theorem takeLiteral_of_append (h : takeLiteral quote cs = some (body, after)) (other : List Char) :
    takeLiteral quote (body ++ other) = some (body, other) := by
  fun_induction takeLiteral quote cs generalizing body with
  | case1 => simp at h
  | case2 => simp at h
  | case3 c rest ih =>
    obtain ⟨⟨more, others⟩, hmore, heq⟩ := Option.map_eq_some_iff.mp h
    cases heq
    simp [takeLiteral, ih hmore]
  | case4 rest hlast hpair =>
    have hplain := ne_backslash hlast hpair
    obtain ⟨rfl, rfl⟩ : [quote] = body ∧ rest = after := by simpa using h
    simp [takeLiteral_cons hplain]
  | case5 => simp at h
  | case6 c rest hlast hpair hc hbreak ih =>
    have hplain := ne_backslash hlast hpair
    obtain ⟨⟨more, others⟩, hmore, heq⟩ := Option.map_eq_some_iff.mp h
    cases heq
    rw [List.cons_append, takeLiteral_cons hplain]
    simp [hc, hbreak, ih hmore]

theorem getLast?_takeLiteral (h : takeLiteral quote cs = some (body, after)) :
    body.getLast? = some quote := by
  fun_induction takeLiteral quote cs generalizing body with
  | case1 => simp at h
  | case2 => simp at h
  | case3 c rest ih =>
    obtain ⟨⟨more, others⟩, hmore, heq⟩ := Option.map_eq_some_iff.mp h
    cases heq
    simp [List.getLast?_cons, ih hmore]
  | case4 rest =>
    obtain ⟨rfl, rfl⟩ : [quote] = body ∧ rest = after := by simpa using h
    rfl
  | case5 => simp at h
  | case6 c rest _ _ _ _ ih =>
    obtain ⟨⟨more, others⟩, hmore, heq⟩ := Option.map_eq_some_iff.mp h
    cases heq
    simp [List.getLast?_cons, ih hmore]

theorem eq_lineBreak_of_takeBlock (h : takeBlock cs = some (breaks, after)) :
    ∀ d ∈ breaks, d = '\n' := by
  fun_induction takeBlock cs generalizing breaks with
  | case1 => simp at h
  | case2 rest =>
    obtain ⟨rfl, rfl⟩ : [] = breaks ∧ rest = after := by simpa using h
    simp
  | case3 c rest _ ih =>
    obtain ⟨⟨more, others⟩, hmore, heq⟩ := Option.map_eq_some_iff.mp h
    obtain ⟨hbreaks, rfl⟩ := Prod.mk.inj heq
    intro d hd
    rw [← hbreaks] at hd
    by_cases hc : c = '\n'
    · rw [if_pos hc] at hd
      rcases List.mem_cons.mp hd with rfl | hmem
      · exact hc
      · exact ih hmore d hmem
    · rw [if_neg hc] at hd
      exact ih hmore d hd

def EndFree (cs : List Char) : Prop := cs.IsChain fun a b => a = '*' → b ≠ '/'

theorem takeBlock_eq_none_iff : takeBlock cs = none ↔ EndFree cs := by
  unfold EndFree
  fun_induction takeBlock cs with
  | case1 => simp
  | case2 rest => simp
  | case3 c rest hopen ih =>
    rw [Option.map_eq_none_iff, ih, List.isChain_cons]
    constructor
    · intro hchain
      refine ⟨?_, hchain⟩
      intro d hd hc hslash
      obtain ⟨more, rfl⟩ := List.head?_eq_some_iff.mp hd
      exact hopen more hc (by rw [hslash])
    · exact And.right

/-- A token begins at a quote that has a partner, and at a slash with another one behind it or with
a star and an end of the comment. -/
theorem takeToken_eq_none_iff : takeToken c rest = none ↔
    (c = '"' ∨ c = '\'' → takeLiteral c rest = none) ∧
    (c = '/' → rest.head? ≠ some '/' ∧ ∀ body, rest = '*' :: body → EndFree body) := by
  by_cases hquote : c = '"' ∨ c = '\''
  · have hslash : c ≠ '/' := by
      rcases hquote with rfl | rfl <;> decide
    simp [takeToken, hquote, hslash]
  · by_cases hslash : c = '/'
    · subst hslash
      unfold takeToken
      rw [if_neg hquote, if_pos rfl]
      split
      · next body => simp [takeBlock_eq_none_iff]
      · next body => simp
      · next hblock hline =>
        have hhead : rest.head? ≠ some '/' := by
          intro hhead
          obtain ⟨body, hbody⟩ := List.head?_eq_some_iff.mp hhead
          exact hline body hbody
        refine iff_of_true rfl ⟨fun hc => absurd hc hquote, fun _ => ⟨hhead, ?_⟩⟩
        intro body hbody
        exact absurd hbody (hblock body)
    · simp [takeToken, hquote, hslash]

/-! ### What stripping brings together -/

/-- Only a text that begins with a slash can lose its beginning. -/
theorem head?_stripped (h : cs.head? ≠ some '/') : (stripped cs).head? = cs.head? := by
  cases cs with
  | nil => rw [stripped]
  | cons c rest =>
    cases htoken : takeToken c rest with
    | none => rw [stripped_of_none htoken, List.head?_cons, List.head?_cons]
    | some token =>
      obtain ⟨kept, after⟩ := token
      rw [stripped_of_takeToken htoken]
      cases takes_of_takeToken htoken with
      | literal => rfl
      | block => simp at h
      | line => simp at h

/-- What is kept of a token neither holds the end of a block comment nor begins one. -/
theorem Takes.endFree (h : Takes c rest kept after) (hfree : EndFree (c :: rest)) :
    EndFree kept ∧ ∀ d ∈ kept.getLast?, d ≠ '*' := by
  cases h with
  | @literal _ _ body _ hquote hbody =>
    rw [← takeLiteral_append hbody, ← List.cons_append] at hfree
    refine ⟨(List.isChain_append.mp hfree).1, ?_⟩
    intro d hd
    rw [List.getLast?_cons, getLast?_takeLiteral hbody] at hd
    obtain rfl : c = d := by simpa using hd
    rcases hquote with rfl | rfl <;> decide
  | block hbreaks =>
    have hall := eq_lineBreak_of_takeBlock hbreaks
    refine ⟨?_, ?_⟩
    · refine (List.pairwise_of_forall_mem_list ?_).isChain
      intro a ha b hb hstar
      rw [hall a ha] at hstar
      simp at hstar
    · intro d hd
      rw [hall d (List.mem_of_getLast? hd)]
      decide
  | line => exact ⟨List.isChain_nil, by simp⟩

/-- Stripping brings no star before a slash. -/
theorem EndFree.stripped (h : EndFree cs) : EndFree (stripped cs) := by
  induction cs using stripped.induct with
  | case1 =>
    rw [Source.stripped]
    exact h
  | case2 c rest kept after htoken ih =>
    have htakes := takes_of_takeToken htoken
    obtain ⟨token, heq, -⟩ := htakes.thinned
    obtain ⟨hkept, hlast⟩ := htakes.endFree h
    rw [heq] at h
    rw [stripped_of_takeToken htoken]
    refine List.isChain_append.mpr ⟨hkept, ih (List.isChain_append.mp h).2.1, ?_⟩
    intro a ha b _ hstar
    exact absurd hstar (hlast a ha)
  | case3 c rest htoken ih =>
    obtain ⟨hhead, hrest⟩ := List.isChain_cons.mp h
    rw [stripped_of_none htoken]
    refine List.isChain_cons.mpr ⟨?_, ih hrest⟩
    intro d hd hstar hslash
    subst hslash
    -- a slash that follows the star now has followed it before, at the head of a comment or alone
    by_cases hbefore : rest.head? = some '/'
    · exact hhead '/' hbefore hstar rfl
    · rw [head?_stripped hbefore] at hd
      exact hbefore hd

/-- Where no token begins in a text without backslashes, none begins when the rest is stripped. -/
theorem takeToken_stripped (h : takeToken c rest = none) (hrest : '\\' ∉ rest) :
    takeToken c (stripped rest) = none := by
  obtain ⟨hliteral, hcomment⟩ := takeToken_eq_none_iff.mp h
  have hthinned := thinned_stripped rest
  refine takeToken_eq_none_iff.mpr ⟨?_, ?_⟩
  · intro hquote
    have hbreak : c ≠ '\n' := by
      rcases hquote with rfl | rfl <;> decide
    have hline := (takeLiteral_eq_none_iff hbreak hrest).mp (hliteral hquote)
    apply (takeLiteral_eq_none_iff hbreak fun hmem => hrest (hthinned.sublist.subset hmem)).mpr
    intro hmem
    exact hline (hthinned.takeWhile_sublist.subset hmem)
  · intro hslash
    obtain ⟨hhead, hblock⟩ := hcomment hslash
    refine ⟨?_, ?_⟩
    · rw [head?_stripped hhead]
      exact hhead
    · intro body hbody
      have hstar : rest.head? = some '*' := by
        rw [← head?_stripped hhead, hbody, List.head?_cons]
      obtain ⟨more, rfl⟩ := List.head?_eq_some_iff.mp hstar
      have hnone : takeToken '*' more = none := by simp [takeToken]
      rw [stripped_of_none hnone] at hbody
      rw [← (List.cons.inj hbody).2]
      exact (hblock more rfl).stripped

theorem lexemes_breaks (h : ∀ d ∈ breaks, d = '\n') (cs : List Char) :
    lexemes (breaks ++ cs) = breaks.map .plain ++ lexemes cs := by
  induction breaks with
  | nil => rfl
  | cons d breaks ih =>
    obtain ⟨rfl, hbreaks⟩ := List.forall_mem_cons.mp h
    have hnone : takeToken '\n' (breaks ++ cs) = none := by simp [takeToken]
    rw [List.cons_append, lexemes_of_none hnone, ih hbreaks]
    rfl

/-- The scan of a stripped text comes upon line breaks in place of the comments and upon all else as
before. -/
theorem lexemes_stripped (h : '\\' ∉ cs) :
    lexemes (stripped cs) = (lexemes cs).flatMap Lexeme.uncommented := by
  induction cs using stripped.induct with
  | case1 =>
    rw [stripped, lexemes_nil]
    rfl
  | case2 c rest kept after htoken ih =>
    have htakes := takes_of_takeToken htoken
    obtain ⟨token, heq, -⟩ := htakes.thinned
    have hafter : '\\' ∉ after := by
      intro hmem
      exact h (by rw [heq]; exact List.mem_append_right _ hmem)
    rw [stripped_of_takeToken htoken, lexemes_of_some htoken, List.flatMap_cons, ← ih hafter]
    cases htakes with
    | @literal _ _ body _ hquote hbody =>
      have hagain : takeToken c (body ++ stripped after) = some (c :: body, stripped after) := by
        simp [takeToken, hquote, takeLiteral_of_append hbody]
      have hslash : c ≠ '/' := by
        rcases hquote with rfl | rfl <;> decide
      rw [List.cons_append, lexemes_of_some hagain, if_neg hslash]
      rfl
    | block hbreaks => exact lexemes_breaks (eq_lineBreak_of_takeBlock hbreaks) _
    | line => rfl
  | case3 c rest htoken ih =>
    rw [List.mem_cons, not_or] at h
    rw [stripped_of_none htoken, lexemes_of_none htoken, List.flatMap_cons, ← ih h.2,
      lexemes_of_none (takeToken_stripped htoken h.2)]
    rfl

end

/-- Where a text holds no backslash, stripping comments from the stripped text changes nothing more.
The scan of the stripped text comes upon the line breaks of the comments and upon the same
characters and string literals as before, so no comment and no literal begins where none began. -/
theorem stripComments_stripComments (text : String) (h : '\\' ∉ text.toList) :
    stripComments (stripComments text) = stripComments text ∧
    lexemes (stripComments text).toList = (lexemes text.toList).flatMap Lexeme.uncommented := by
  have htext : (stripComments text).toList = stripped text.toList := by
    rw [stripComments, String.toList_ofList]
  have hlexemes := lexemes_stripped h
  rw [htext]
  refine ⟨?_, hlexemes⟩
  rw [stripComments, htext, stripped_eq_flatMap, hlexemes, List.flatMap_assoc]
  simp only [Lexeme.flatMap_kept_uncommented]
  rw [← stripped_eq_flatMap, stripComments]

/-- A quote without a partner, comments with a slash on either side, an end and an opener that
belong to no comment, and a literal that holds an opener. -/
def looseMarkers : String := "it's /* \" */ so\n*/* y *// z \"/*\" /* open // x"

theorem stripComments_looseMarkers :
    '\\' ∉ looseMarkers.toList ∧
    stripComments looseMarkers = "it's  so\n*/ z \"/*\" /* open " ∧
    stripComments (stripComments looseMarkers) = stripComments looseMarkers ∧
    lexemes (stripComments looseMarkers).toList =
      (lexemes looseMarkers.toList).flatMap Lexeme.uncommented :=
  ⟨by decide, by decide +kernel, stripComments_stripComments looseMarkers (by decide)⟩

-- A backslash in a literal may come to stand before a line break that a comment leaves behind, and a
-- literal that had no end on its line then runs on.
example : stripComments "\"\\/*\n*/\"//\"" = "\"\\\n\"//\"" ∧
    stripComments "\"\\\n\"//\"" = "\"\\\n\"" := by decide +kernel

end AuditHours.Source
