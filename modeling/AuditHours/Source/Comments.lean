/-!
Comments of a contract source. A line comment vanishes up to its line break, a block comment leaves
its line breaks behind, and a string literal is kept as it is, so that slashes inside quotes open no
comment. A quote or a block opener without its end is an ordinary character.
-/
namespace AuditHours.Source

/-- The body of a string literal with its closing quote, and the rest of the text. A backslash takes
the next character with it; a bare line break ends no literal. -/
def takeLiteral (quote : Char) : List Char → Option (List Char × List Char)
  | [] => none
  | ['\\'] => none
  | '\\' :: c :: rest =>
    (takeLiteral quote rest).map fun (body, after) => ('\\' :: c :: body, after)
  | c :: rest =>
    if c = quote then some ([c], rest)
    else if c = '\n' then none
    else (takeLiteral quote rest).map fun (body, after) => (c :: body, after)

/-- The line breaks of a block comment whose opener was read, and the text behind its end. -/
def takeBlock : List Char → Option (List Char × List Char)
  | [] => none
  | '*' :: '/' :: rest => some ([], rest)
  | c :: rest =>
    (takeBlock rest).map fun (breaks, after) => (if c = '\n' then c :: breaks else breaks, after)

/-- What the text that starts with a character keeps of the literal or comment there, and the text
behind it; none if neither starts there. -/
def takeToken (c : Char) (rest : List Char) : Option (List Char × List Char) :=
  if c = '"' ∨ c = '\'' then (takeLiteral c rest).map fun (body, after) => (c :: body, after)
  else if c = '/' then
    match rest with
    | '*' :: body => takeBlock body
    | '/' :: body => some ([], body.dropWhile (· != '\n'))
    | _ => none
  else none

theorem takeLiteral_length {quote : Char} {cs body after : List Char}
    (h : takeLiteral quote cs = some (body, after)) : after.length < cs.length := by
  fun_induction takeLiteral quote cs generalizing body with
  | case1 => simp at h
  | case2 => simp at h
  | case3 c rest ih =>
    obtain ⟨⟨b, a⟩, hb, heq⟩ := Option.map_eq_some_iff.1 h
    cases heq
    have := ih hb
    simp only [List.length_cons]
    omega
  | case4 rest =>
    simp only [Option.some.injEq, Prod.mk.injEq] at h
    simp [← h.2]
  | case5 => simp at h
  | case6 c rest _ _ _ _ ih =>
    obtain ⟨⟨b, a⟩, hb, heq⟩ := Option.map_eq_some_iff.1 h
    cases heq
    have := ih hb
    simp only [List.length_cons]
    omega

theorem takeBlock_length {cs breaks after : List Char} (h : takeBlock cs = some (breaks, after)) :
    after.length < cs.length := by
  fun_induction takeBlock cs generalizing breaks with
  | case1 => simp at h
  | case2 rest =>
    simp only [Option.some.injEq, Prod.mk.injEq] at h
    simp only [← h.2, List.length_cons]
    omega
  | case3 c rest _ ih =>
    obtain ⟨⟨b, a⟩, hb, heq⟩ := Option.map_eq_some_iff.1 h
    cases heq
    have := ih hb
    simp only [List.length_cons]
    omega

theorem takeToken_length {c : Char} {rest kept after : List Char}
    (h : takeToken c rest = some (kept, after)) : after.length ≤ rest.length := by
  unfold takeToken at h
  split at h
  · obtain ⟨⟨b, a⟩, hb, heq⟩ := Option.map_eq_some_iff.1 h
    cases heq
    exact Nat.le_of_lt (takeLiteral_length hb)
  · split at h
    · split at h
      · have := takeBlock_length h
        simp only [List.length_cons]
        omega
      · next body =>
        simp only [Option.some.injEq, Prod.mk.injEq] at h
        rw [← h.2]
        exact Nat.le_succ_of_le (List.dropWhile_suffix _).length_le
      · simp at h
    · simp at h

def stripped : List Char → List Char
  | [] => []
  | c :: rest =>
    match _h : takeToken c rest with
    | some (kept, after) => kept ++ stripped after
    | none => c :: stripped rest
  termination_by cs => cs.length
  decreasing_by
    · exact Nat.lt_succ_of_le (takeToken_length _h)
    · exact Nat.lt_succ_self _

def stripComments (source : String) : String := String.ofList (stripped source.toList)

end AuditHours.Source
