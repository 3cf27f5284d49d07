import AuditHours.Files.Path

/-!
Paths and their texts. The names of a path are neither empty nor a single dot and hold no slash, so
the text of a path reads back as the path, and collapsing a path keeps this. The names of two texts
with a slash between them are the names of both. Reading, joining and collapsing paths brings in no
characters but dots and slashes.
-/
namespace AuditHours.Files

/-- Splitting begins with a piece, whatever the text is. -/
theorem splitSlash_cases (cs : List Char) : ∃ piece others, splitSlash cs = piece :: others := by
  cases cs with
  | nil => exact ⟨[], [], rfl⟩
  | cons c rest =>
    unfold splitSlash
    simp only []
    split
    · exact ⟨_, _, rfl⟩
    · split <;> exact ⟨_, _, rfl⟩

theorem splitSlash_slash (cs : List Char) : splitSlash ('/' :: cs) = [] :: splitSlash cs := rfl

theorem splitSlash_cons {c : Char} {cs piece : List Char} {others : List (List Char)}
    (hc : c ≠ '/') (hcs : splitSlash cs = piece :: others) :
    splitSlash (c :: cs) = (c :: piece) :: others := by
  simp [splitSlash, hc, hcs]

theorem splitSlash_append (a b : List Char) :
    splitSlash (a ++ '/' :: b) = splitSlash a ++ splitSlash b := by
  induction a with
  | nil => rfl
  | cons c rest ih =>
    by_cases hc : c = '/'
    · subst hc
      simp [splitSlash_slash, ih]
    · obtain ⟨piece, others, hrest⟩ := splitSlash_cases rest
      rw [hrest] at ih
      rw [List.cons_append, splitSlash_cons hc ih, splitSlash_cons hc hrest]
      rfl

theorem splitSlash_of_not_mem {cs : List Char} (h : '/' ∉ cs) : splitSlash cs = [cs] := by
  induction cs with
  | nil => rfl
  | cons c rest ih =>
    rw [List.mem_cons, not_or] at h
    exact splitSlash_cons (Ne.symm h.1) (ih h.2)

theorem slash_not_mem_piece {cs piece : List Char} (h : piece ∈ splitSlash cs) : '/' ∉ piece := by
  induction cs generalizing piece with
  | nil =>
    obtain rfl := List.mem_singleton.mp h
    simp
  | cons c rest ih =>
    by_cases hc : c = '/'
    · subst hc
      rcases List.mem_cons.mp h with rfl | hrest
      · simp
      · exact ih hrest
    · obtain ⟨first, others, hrest⟩ := splitSlash_cases rest
      rw [splitSlash_cons hc hrest] at h
      rw [hrest] at ih
      rcases List.mem_cons.mp h with rfl | hother
      · rw [List.mem_cons, not_or]
        exact ⟨Ne.symm hc, ih (List.mem_cons_self ..)⟩
      · exact ih (List.mem_cons_of_mem _ hother)

/-- Splitting drops the slashes and nothing else. -/
theorem mem_pieces_iff {c : Char} (hc : c ≠ '/') {cs : List Char} :
    (∃ piece ∈ splitSlash cs, c ∈ piece) ↔ c ∈ cs := by
  induction cs with
  | nil => simp [splitSlash]
  | cons d rest ih =>
    by_cases hd : d = '/'
    · subst hd
      rw [splitSlash_slash, List.mem_cons, ← ih]
      simp [hc]
    · obtain ⟨piece, others, hrest⟩ := splitSlash_cases rest
      rw [splitSlash_cons hd hrest, List.mem_cons, ← ih, hrest]
      simp [or_assoc]

namespace Path

def namesIn (cs : List Char) : List String :=
  ((splitSlash cs).filter fun piece => piece != [] && piece != ['.']).map String.ofList

theorem ofString_eq (s : String) : ofString s = ⟨.of s.toList, namesIn s.toList⟩ := rfl

/-- A name that reading a path keeps. -/
structure IsName (name : String) : Prop where
  filled : name ≠ ""
  notDot : name ≠ "."
  slashless : '/' ∉ name.toList

theorem namesIn_append (a b : List Char) : namesIn (a ++ '/' :: b) = namesIn a ++ namesIn b := by
  simp [namesIn, splitSlash_append]

theorem isName_of_mem_namesIn {cs : List Char} {name : String} (h : name ∈ namesIn cs) :
    IsName name := by
  obtain ⟨piece, hpiece, rfl⟩ := List.mem_map.mp h
  obtain ⟨hmem, hkept⟩ := List.mem_filter.mp hpiece
  simp only [Bool.and_eq_true, bne_iff_ne] at hkept
  refine ⟨?_, ?_, ?_⟩
  · intro hempty
    exact hkept.1 (by simpa using congrArg String.toList hempty)
  · intro hdot
    exact hkept.2 (by simpa using congrArg String.toList hdot)
  · rw [String.toList_ofList]
    exact slash_not_mem_piece hmem

theorem namesIn_name {name : String} (h : IsName name) : namesIn name.toList = [name] := by
  have hfilled : name.toList ≠ [] := by
    intro hempty
    exact h.filled (String.toList_injective hempty)
  have hnotDot : name.toList ≠ ['.'] := by
    intro hdot
    exact h.notDot (String.toList_injective hdot)
  simp [namesIn, splitSlash_of_not_mem h.slashless, hfilled, hnotDot]

/-- The names in names with slashes between them are the names themselves. -/
theorem namesIn_intercalate {names : List String} (h : ∀ name ∈ names, IsName name) :
    namesIn ("/".intercalate names).toList = names := by
  induction names with
  | nil => rfl
  | cons name rest ih =>
    have hname := h name (List.mem_cons_self ..)
    have hrest : ∀ other ∈ rest, IsName other :=
      fun other hother => h other (List.mem_cons_of_mem _ hother)
    cases rest with
    | nil => simpa using namesIn_name hname
    | cons second others =>
      have htext : ("/".intercalate (name :: second :: others)).toList =
          name.toList ++ '/' :: ("/".intercalate (second :: others)).toList := by
        simp [String.intercalate_cons_cons]
      rw [htext, namesIn_append, namesIn_name hname, ih hrest]
      rfl

/-- Names with slashes between them begin with no slash, unless there are none. -/
theorem intercalate_head {names : List String} (h : ∀ name ∈ names, IsName name)
    (hnames : names ≠ []) :
    ∃ c cs, ("/".intercalate names).toList = c :: cs ∧ c ≠ '/' := by
  obtain ⟨name, rest, rfl⟩ := List.exists_cons_of_ne_nil hnames
  have hname := h name (List.mem_cons_self ..)
  obtain ⟨c, cs, hcs⟩ : ∃ c cs, name.toList = c :: cs := by
    refine List.exists_cons_of_ne_nil fun hempty => hname.filled ?_
    exact String.toList_injective hempty
  have hc : c ≠ '/' := by
    rintro rfl
    exact hname.slashless (by simp [hcs])
  cases rest with
  | nil => exact ⟨c, cs, by simpa using hcs, hc⟩
  | cons second others =>
    refine ⟨c, cs ++ '/' :: ("/".intercalate (second :: others)).toList, ?_, hc⟩
    simp [String.intercalate_cons_cons, hcs]

theorem anchor_of_cons {c : Char} {cs : List Char} (hc : c ≠ '/') :
    Anchor.of (c :: cs) = .relative := by
  unfold Anchor.of
  split <;> simp_all

theorem anchor_of_root {cs : List Char} (hcs : ∀ c rest, cs = c :: rest → c ≠ '/') :
    Anchor.of ('/' :: cs) = .root := by
  cases cs with
  | nil => rfl
  | cons c rest =>
    have hc := hcs c rest rfl
    simp [Anchor.of, hc]

theorem anchor_of_doubleRoot {cs : List Char} (hcs : ∀ c rest, cs = c :: rest → c ≠ '/') :
    Anchor.of ('/' :: '/' :: cs) = .doubleRoot := by
  cases cs with
  | nil => rfl
  | cons c rest =>
    have hc := hcs c rest rfl
    simp [Anchor.of, hc]

/-- The text of a path reads back as the path. -/
theorem ofString_text {p : Path} (h : ∀ name ∈ p.names, IsName name) : ofString p.text = p := by
  obtain ⟨anchor, names⟩ := p
  have hhead : ∀ c rest, ("/".intercalate names).toList = c :: rest → c ≠ '/' := by
    intro c rest hcs
    by_cases hnames : names = []
    · simp [hnames] at hcs
    · obtain ⟨d, ds, hds, hd⟩ := intercalate_head h hnames
      rw [hds] at hcs
      obtain ⟨rfl, rfl⟩ := List.cons.inj hcs
      exact hd
  have hnames := namesIn_intercalate h
  cases anchor with
  | relative =>
    by_cases hempty : names = []
    · subst hempty
      rfl
    · obtain ⟨c, cs, hcs, hc⟩ := intercalate_head h hempty
      have htext : text ⟨.relative, names⟩ = "/".intercalate names := by
        simp [text, hempty, Anchor.text]
      rw [htext, ofString_eq, hnames, hcs, anchor_of_cons hc]
  | root =>
    have htext : (text ⟨.root, names⟩).toList = '/' :: ("/".intercalate names).toList := by
      simp [text, Anchor.text]
    rw [ofString_eq, htext, anchor_of_root hhead]
    have hroot := namesIn_append [] ("/".intercalate names).toList
    rw [List.nil_append] at hroot
    rw [hroot, hnames]
    rfl
  | doubleRoot =>
    have htext : (text ⟨.doubleRoot, names⟩).toList =
        '/' :: '/' :: ("/".intercalate names).toList := by
      simp [text, Anchor.text]
    rw [ofString_eq, htext, anchor_of_doubleRoot hhead]
    have hroot := namesIn_append ['/'] ("/".intercalate names).toList
    rw [List.singleton_append] at hroot
    rw [hroot, hnames]
    rfl

theorem mem_of_mem_pushName {anchor : Anchor} {stack : List String} {name other : String}
    (h : other ∈ pushName anchor stack name) : other = name ∨ other ∈ stack := by
  unfold pushName at h
  split at h
  · split at h
    · split at h
      · exact Or.inl (List.mem_singleton.mp h)
      · simp at h
    · split at h
      · exact List.mem_cons.mp h
      · exact Or.inr (List.mem_cons_of_mem _ h)
  · exact List.mem_cons.mp h

/-- Collapsing a path only drops names. -/
theorem mem_of_mem_collapse {p : Path} {name : String} (h : name ∈ p.collapse.names) :
    name ∈ p.names := by
  have hfold : ∀ (names stack : List String) (name : String),
      name ∈ names.foldl (pushName p.anchor) stack → name ∈ names ∨ name ∈ stack := by
    intro names
    induction names with
    | nil => exact fun stack name hname => Or.inr hname
    | cons first rest ih =>
      intro stack name hname
      rcases ih _ name hname with hrest | hpushed
      · exact Or.inl (List.mem_cons_of_mem _ hrest)
      · rcases mem_of_mem_pushName hpushed with rfl | hstack
        · exact Or.inl (List.mem_cons_self ..)
        · exact Or.inr hstack
  rcases hfold p.names [] name (List.mem_reverse.mp h) with hname | hstack
  · exact hname
  · simp at hstack

/-- Collapsing keeps names that reading a path keeps. -/
theorem isName_of_mem_collapse {p : Path} {name : String} (hp : ∀ name ∈ p.names, IsName name)
    (h : name ∈ p.collapse.names) : IsName name :=
  hp name (mem_of_mem_collapse h)

/-- After an ordinary name a collapsed path has no double dots. -/
theorem pairwise_collapse (p : Path) :
    p.collapse.names.Pairwise fun before after => after = ".." → before = ".." := by
  have hpush : ∀ (stack : List String) (name : String),
      stack.Pairwise (fun after before => after = ".." → before = "..") →
      (pushName p.anchor stack name).Pairwise fun after before => after = ".." → before = ".." := by
    intro stack name hstack
    unfold pushName
    split
    · split
      · split <;> simp
      · next top below =>
        split
        · next htop =>
          refine List.pairwise_cons.mpr ⟨fun other hother _ => ?_, hstack⟩
          rcases List.mem_cons.mp hother with rfl | hbelow
          · exact htop
          · exact List.rel_of_pairwise_cons hstack hbelow htop
        · exact hstack.of_cons
    · next hname => exact List.pairwise_cons.mpr ⟨fun _ _ hdots => absurd hdots hname, hstack⟩
  have hfold : ∀ (names stack : List String),
      stack.Pairwise (fun after before => after = ".." → before = "..") →
      (names.foldl (pushName p.anchor) stack).Pairwise
        fun after before => after = ".." → before = ".." := by
    intro names
    induction names with
    | nil => exact fun stack hstack => hstack
    | cons name rest ih => exact fun stack hstack => ih _ (hpush stack name hstack)
  exact List.pairwise_reverse.mpr (hfold p.names [] List.Pairwise.nil)

/-- The text of a collapsed path reads back as the collapsed path. -/
theorem ofString_text_collapse (s : String) :
    ofString (ofString s).collapse.text = (ofString s).collapse :=
  ofString_text fun _ hname => isName_of_mem_collapse (fun _ hmem => isName_of_mem_namesIn hmem) hname

/-! ### Characters of paths -/

section

variable {c : Char} {names : List String} {base p : Path} {s : String}

theorem mem_intercalate_iff (hslash : c ≠ '/') :
    c ∈ ("/".intercalate names).toList ↔ ∃ name ∈ names, c ∈ name.toList := by
  induction names with
  | nil => simp
  | cons name rest ih =>
    cases rest with
    | nil => simp
    | cons second others =>
      have htext : ("/".intercalate (name :: second :: others)).toList =
          name.toList ++ '/' :: ("/".intercalate (second :: others)).toList := by
        simp [String.intercalate_cons_cons]
      rw [htext, List.mem_append, List.mem_cons, ih]
      simp [hslash]

/-- Apart from dots and slashes the text of a path holds the characters of its names. -/
theorem mem_text_iff (hslash : c ≠ '/') (hdot : c ≠ '.') :
    c ∈ p.text.toList ↔ ∃ name ∈ p.names, c ∈ name.toList := by
  have hanchor : c ∉ p.anchor.text.toList := by
    cases p.anchor <;> simp [Anchor.text, hslash]
  unfold text
  split
  · next hempty => simp [hempty.2, hdot]
  · rw [String.toList_append, List.mem_append, mem_intercalate_iff hslash]
    exact or_iff_right hanchor

/-- Reading a path loses no characters but dots and slashes. -/
theorem mem_namesIn_iff (hslash : c ≠ '/') (hdot : c ≠ '.') {cs : List Char} :
    (∃ name ∈ namesIn cs, c ∈ name.toList) ↔ c ∈ cs := by
  rw [← mem_pieces_iff hslash]
  constructor
  · rintro ⟨name, hname, hc⟩
    obtain ⟨piece, hpiece, rfl⟩ := List.mem_map.mp hname
    rw [String.toList_ofList] at hc
    exact ⟨piece, (List.mem_filter.mp hpiece).1, hc⟩
  · rintro ⟨piece, hpiece, hc⟩
    have hkept : (piece != [] && piece != ['.']) = true := by
      rw [Bool.and_eq_true, bne_iff_ne, bne_iff_ne]
      refine ⟨List.ne_nil_of_mem hc, ?_⟩
      rintro rfl
      exact hdot (List.mem_singleton.mp hc)
    refine ⟨String.ofList piece, ?_, by rwa [String.toList_ofList]⟩
    exact List.mem_map_of_mem (List.mem_filter.mpr ⟨hpiece, hkept⟩)

theorem mem_text_ofString_iff (hslash : c ≠ '/') (hdot : c ≠ '.') :
    c ∈ (ofString s).text.toList ↔ c ∈ s.toList := by
  rw [mem_text_iff hslash hdot, ofString_eq]
  exact mem_namesIn_iff hslash hdot

/-- A path that is read from another one adds its own characters to those of the other. -/
theorem mem_text_join_iff (hslash : c ≠ '/') (hdot : c ≠ '.') (hbase : c ∉ base.text.toList) :
    c ∈ (base.join p).text.toList ↔ c ∈ p.text.toList := by
  rw [mem_text_iff hslash hdot] at hbase ⊢
  rw [mem_text_iff hslash hdot]
  unfold join
  split
  · exact Iff.rfl
  · simp only [List.mem_append, or_and_right, exists_or]
    exact or_iff_right hbase

theorem mem_text_of_mem_collapse (hslash : c ≠ '/') (hdot : c ≠ '.')
    (h : c ∈ p.collapse.text.toList) : c ∈ p.text.toList := by
  rw [mem_text_iff hslash hdot] at h ⊢
  obtain ⟨name, hname, hc⟩ := h
  exact ⟨name, mem_of_mem_collapse hname, hc⟩

end

end Path

end AuditHours.Files
