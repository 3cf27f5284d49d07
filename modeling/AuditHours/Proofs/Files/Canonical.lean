import AuditHours.Proofs.Files.PathText
import Mathlib.Data.List.DropRight

/-!
Collapsed paths. Collapsing pushes names on a stack on which no name cancels the one below it, so a
stack that was built in this way is built again from its own names. It follows that a collapsed path
stays as it is, that an ordinary name and a double dot behind it leave no trace, and that names can
be collapsed in two goes.
-/
namespace AuditHours.Files

/-- The text of a path with its double dots resolved. -/
def canonical (s : String) : String := (Path.ofString s).collapse.text

namespace Path

/-- What stands before a first character that is no slash decides where a path starts. -/
theorem anchor_append {c : Char} (hc : c ≠ '/') (cs rest : List Char) :
    Anchor.of (cs ++ c :: rest) = Anchor.of cs := by
  have hhead : ∀ {d : Char} {ds : List Char}, d ≠ '/' → ∀ other others,
      d :: ds = other :: others → other ≠ '/' := by
    intro d ds hd other others heq
    rwa [← (List.cons.inj heq).1]
  cases cs with
  | nil => exact anchor_of_cons hc
  | cons d cs =>
    by_cases hd : d = '/'
    · subst hd
      cases cs with
      | nil => exact anchor_of_root (hhead hc)
      | cons e cs =>
        by_cases he : e = '/'
        · subst he
          cases cs with
          | nil => exact anchor_of_doubleRoot (hhead hc)
          | cons f cs =>
            by_cases hf : f = '/'
            · subst hf
              rfl
            · exact (anchor_of_doubleRoot (hhead hf)).trans (anchor_of_doubleRoot (hhead hf)).symm
        · exact (anchor_of_root (hhead he)).trans (anchor_of_root (hhead he)).symm
    · exact (anchor_of_cons hd).trans (anchor_of_cons hd).symm

variable {anchor : Anchor} {stack names : List String} {name : String}

/-- A name does not begin with a slash. -/
theorem IsName.exists_head (h : IsName name) : ∃ c cs, name.toList = c :: cs ∧ c ≠ '/' := by
  obtain ⟨c, cs, hcs⟩ : ∃ c cs, name.toList = c :: cs :=
    List.exists_cons_of_ne_nil fun hempty => h.filled (String.toList_injective hempty)
  refine ⟨c, cs, hcs, ?_⟩
  rintro rfl
  exact h.slashless (by simp [hcs])

def Stacked (anchor : Anchor) : List String → Prop
  | [] => True
  | top :: below => pushName anchor below top = top :: below ∧ Stacked anchor below

theorem pushName_ordinary (hname : name ≠ "..") : pushName anchor stack name = name :: stack :=
  if_neg hname

theorem stacked_pushName (h : Stacked anchor stack) : Stacked anchor (pushName anchor stack name) := by
  by_cases hname : name = ".."
  · subst hname
    cases stack with
    | nil =>
      by_cases hanchor : anchor = .relative
      · simp [pushName, Stacked, hanchor]
      · simp [pushName, Stacked, hanchor]
    | cons top below =>
      by_cases htop : top = ".."
      · subst htop
        simpa [pushName, Stacked] using h
      · simpa [pushName, htop] using h.2
  · rw [pushName_ordinary hname]
    exact ⟨pushName_ordinary hname, h⟩

theorem stacked_foldl (names : List String) (h : Stacked anchor stack) :
    Stacked anchor (names.foldl (pushName anchor) stack) := by
  induction names generalizing stack with
  | nil => exact h
  | cons name rest ih => exact ih (stacked_pushName h)

/-- A stack is built again from its names. -/
theorem foldl_pushName_reverse (h : Stacked anchor stack) :
    stack.reverse.foldl (pushName anchor) [] = stack := by
  induction stack with
  | nil => rfl
  | cons top below ih => rw [List.reverse_cons, List.foldl_concat, ih h.2, h.1]

theorem foldl_pushName_collapse (p : Path) :
    p.collapse.names.foldl (pushName p.anchor) [] = p.names.foldl (pushName p.anchor) [] :=
  foldl_pushName_reverse (stacked_foldl p.names trivial)

/-- The first names of a path may be collapsed before the others. -/
theorem collapse_append (before after : List String) :
    collapse ⟨anchor, (collapse ⟨anchor, before⟩).names ++ after⟩ =
      collapse ⟨anchor, before ++ after⟩ := by
  have hbefore : (collapse ⟨anchor, before⟩).names.foldl (pushName anchor) [] =
      before.foldl (pushName anchor) [] := foldl_pushName_collapse ⟨anchor, before⟩
  simp only [collapse, List.foldl_append] at hbefore ⊢
  rw [hbefore]

theorem collapse_collapse (p : Path) : p.collapse.collapse = p.collapse := by
  have h := @collapse_append p.anchor p.names []
  rw [List.append_nil, List.append_nil] at h
  exact h

/-- The last name of a path stays if it is an ordinary one. -/
theorem names_collapse_concat (hname : name ≠ "..") (names : List String) :
    (collapse ⟨anchor, names ++ [name]⟩).names = (collapse ⟨anchor, names⟩).names ++ [name] := by
  simp [collapse, List.foldl_append, pushName_ordinary hname]

/-- An ordinary name and the way back from it lead nowhere. -/
theorem collapse_back (hname : name ≠ "..") (before after : List String) :
    collapse ⟨anchor, before ++ name :: ".." :: after⟩ = collapse ⟨anchor, before ++ after⟩ := by
  have hback : ∀ stack, pushName anchor (pushName anchor stack name) ".." = stack := by
    intro stack
    rw [pushName_ordinary hname]
    simp [pushName, hname]
  simp [collapse, List.foldl_append, hback]

/-- The text of a path ends in its last name, behind nothing or a slash. -/
theorem text_concat (anchor : Anchor) (names : List String) (name : String) :
    ∃ front, (front = [] ∨ ∃ before, front = before ++ ['/']) ∧
      (text ⟨anchor, names ++ [name]⟩).toList = front ++ name.toList := by
  have htext : text ⟨anchor, names ++ [name]⟩ =
      anchor.text ++ "/".intercalate (names ++ [name]) := by
    simp [text]
  rw [htext]
  by_cases hnames : names = []
  · subst hnames
    refine ⟨anchor.text.toList, ?_, by simp⟩
    cases anchor with
    | relative => exact Or.inl rfl
    | root => exact Or.inr ⟨[], rfl⟩
    | doubleRoot => exact Or.inr ⟨['/'], rfl⟩
  · refine ⟨anchor.text.toList ++ ("/".intercalate names).toList ++ ['/'],
      Or.inr ⟨_, rfl⟩, ?_⟩
    rw [String.intercalate_append_of_ne_nil hnames (by simp)]
    simp

/-- A slash at the end of a text adds no name. -/
theorem namesIn_concat_slash (front : List Char) : namesIn (front ++ ['/']) = namesIn front := by
  have hempty : namesIn [] = [] := rfl
  rw [namesIn_append, hempty, List.append_nil]

/-- Behind nothing or a slash the names of a text follow those before. -/
theorem namesIn_append_of_slash {front : List Char}
    (hfront : front = [] ∨ ∃ before, front = before ++ ['/']) (cs : List Char) :
    namesIn (front ++ cs) = namesIn front ++ namesIn cs := by
  rcases hfront with rfl | ⟨before, rfl⟩
  · rfl
  · rw [namesIn_concat_slash, List.append_assoc, List.singleton_append, namesIn_append]

theorem namesIn_rdropWhile (cs : List Char) : namesIn (cs.rdropWhile (· = '/')) = namesIn cs := by
  induction cs using List.reverseRecOn with
  | nil => rfl
  | append_singleton front c ih =>
    by_cases hc : c = '/'
    · subst hc
      rw [List.rdropWhile_concat_pos _ _ _ (by simp), ih, namesIn_concat_slash]
    · rw [List.rdropWhile_concat_neg _ _ _ (by simpa using hc)]

end Path

/-- Making the text of a path canonical twice changes nothing more. -/
theorem canonical_text_collapse (s : String) :
    canonical (Path.ofString s).collapse.text = (Path.ofString s).collapse.text := by
  rw [canonical, Path.ofString_text_collapse, Path.collapse_collapse]

end AuditHours.Files
