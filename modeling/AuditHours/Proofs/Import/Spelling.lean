import AuditHours.Proofs.Files.Canonical
import AuditHours.Proofs.Import.ImportClosure
import AuditHours.Proofs.Import.RelativePath
import Mathlib.Data.List.Count

/-!
Spellings of relative imports. A relative import names one unit in all its spellings: a single dot,
a repeated slash, or an ordinary name and the way back from it change nothing behind a slash. The
name of the unit is canonical, and what is imported inside the unit in its turn is named as if it
had been imported by the way through the directory of the first import. So a unit that is imported
in different spellings, or through a chain of imports, is read once.
-/
namespace AuditHours.Import

open Files

/-! ### Relative import paths -/

def dropSlashes (cs : List Char) : List Char :=
  if cs.all (· = '/') then cs else cs.rdropWhile (· = '/')

def directoryText (path : String) : String :=
  String.ofList (dropSlashes (directoryChars path.toList))

/-- An import path that leads on from the directory of another one. -/
def onward (path next : String) : String := directoryText path ++ "/" ++ next

def EndsInName (path : String) : Prop :=
  ∃ front name, path.toList = front ++ '/' :: name.toList ∧ Path.IsName name ∧ name ≠ ".."

/-- What leads nowhere behind a slash: a single dot, a second slash, or an ordinary name and the way
back from it. -/
inductive Detour : List Char → Prop
  | dot : Detour ['.', '/']
  | slash : Detour ['/']
  | back {name : String} (hname : Path.IsName name) (hordinary : name ≠ "..") :
      Detour (name.toList ++ ['/', '.', '.', '/'])

/-- An import path and the same path with a detour behind one of its slashes. -/
inductive Respelled : String → String → Prop
  | insert (front back : List Char) {detour : List Char} (h : Detour detour) :
      Respelled (String.ofList (front ++ '/' :: back)) (String.ofList (front ++ '/' :: (detour ++ back)))

variable {importer path other next : String} {front back : List Char}

/-- A relative path begins with one or two dots and a slash. -/
theorem isRelative_iff : isRelative path = true ↔
    ['.', '/'] <+: path.toList ∨ ['.', '.', '/'] <+: path.toList := by
  simp only [isRelative, Bool.or_eq_true, List.isPrefixOf_iff_prefix]

/-- A beginning that ends with its only slash is decided by what stands before any slash. -/
theorem prefix_slash_iff {dots : List Char} (hdots : '/' ∉ dots) :
    dots ++ ['/'] <+: front ++ '/' :: back ↔ dots ++ ['/'] <+: front ++ ['/'] := by
  have hfront : front ++ ['/'] <+: front ++ '/' :: back := ⟨back, by simp⟩
  constructor
  · intro h
    by_cases hlength : dots.length ≤ front.length
    · exact List.prefix_of_prefix_length_le h hfront (by simpa using hlength)
    · -- a longer beginning would hold the slash twice
      have hshort : front ++ ['/'] <+: dots := by
        have hwhole : front ++ ['/'] <+: dots ++ ['/'] :=
          List.prefix_of_prefix_length_le hfront h (by simp; omega)
        refine (List.prefix_concat_iff.mp hwhole).resolve_left fun heq => ?_
        exact hlength (by simp [(List.append_inj_left' heq rfl)])
      exact absurd (hshort.subset (by simp)) hdots
  · exact fun h => h.trans hfront

theorem isRelative_slash_iff : isRelative (String.ofList (front ++ '/' :: back)) = true ↔
    ['.', '/'] <+: front ++ ['/'] ∨ ['.', '.', '/'] <+: front ++ ['/'] := by
  rw [isRelative_iff, String.toList_ofList]
  exact or_congr (@prefix_slash_iff front back ['.'] (by decide))
    (@prefix_slash_iff front back ['.', '.'] (by decide))

/-- Slashes at the end of a text can be dropped before one. -/
theorem prefix_rdropWhile {dots : List Char} (hdots : dots.getLast? ≠ some '/')
    (h : dots ++ ['/'] <+: front ++ ['/']) :
    dots ++ ['/'] <+: front.rdropWhile (· = '/') ++ ['/'] := by
  induction front using List.reverseRecOn with
  | nil => exact h
  | append_singleton front c ih =>
    by_cases hc : c = '/'
    · subst hc
      rw [List.rdropWhile_concat_pos _ _ _ (by simp)]
      refine ih ((List.prefix_concat_iff.mp h).resolve_left fun heq => ?_)
      rw [List.append_inj_left' heq rfl] at hdots
      simp at hdots
    · rwa [List.rdropWhile_concat_neg _ _ _ (by simpa using hc)]

/-! ### Directories -/

theorem directoryChars_append_name {name : List Char} (hname : '/' ∉ name)
    (hfront : front = [] ∨ ∃ before, front = before ++ ['/']) :
    directoryChars (front ++ name) = front := by
  unfold directoryChars
  have hdrop : ∀ c ∈ name.reverse, (c != '/') = true := by
    intro c hc
    rw [bne_iff_ne]
    rintro rfl
    exact hname (List.mem_reverse.mp hc)
  rw [List.reverse_append, List.dropWhile_append_of_pos hdrop]
  rcases hfront with rfl | ⟨before, rfl⟩
  · rfl
  · simp

/-- The directory of the text of a path is the path without its last name. -/
theorem directory_text {p : Path} (h : ∀ name ∈ p.names, Path.IsName name) :
    directory p.text = p.parent := by
  obtain ⟨anchor, found⟩ := p
  rcases List.eq_nil_or_concat found with rfl | ⟨stem, name, rfl⟩
  · cases anchor <;> decide +kernel
  · rw [List.concat_eq_append] at h ⊢
    have hname : Path.IsName name := h name (by simp)
    obtain ⟨head, hhead, htext⟩ := Path.text_concat anchor stem name
    have hread := Path.ofString_text (p := ⟨anchor, stem ++ [name]⟩) h
    rw [Path.ofString_eq, htext, Path.namesIn_append_of_slash hhead, Path.namesIn_name hname] at hread
    obtain ⟨c, cs, hcs, hc⟩ := hname.exists_head
    rw [hcs, Path.anchor_append hc] at hread
    injection hread with hanchor hnames
    unfold directory
    rw [htext, directoryChars_append_name hname.slashless hhead, Path.ofString_eq,
      String.toList_ofList, hanchor, List.append_cancel_right hnames]
    simp [Path.parent]

/-- The directory of a relative path has the names before the last one, and what leads on from it is
a relative path again. -/
theorem onward_eq {name : List Char} (hrelative : isRelative path = true)
    (hpath : path.toList = front ++ '/' :: name) (hname : '/' ∉ name) (next : String) :
    Path.namesIn (onward path next).toList = Path.namesIn front ++ Path.namesIn next.toList ∧
      isRelative (onward path next) = true := by
  have hprefix : ['.', '/'] <+: front ++ ['/'] ∨ ['.', '.', '/'] <+: front ++ ['/'] := by
    rwa [← @isRelative_slash_iff _ name, ← hpath, String.ofList_toList]
  have hhead : directoryChars path.toList = front ++ ['/'] := by
    rw [hpath, ← List.singleton_append, ← List.append_assoc]
    exact directoryChars_append_name hname (Or.inr ⟨front, rfl⟩)
  have hdots : (front ++ ['/']).all (· = '/') = false := by
    have hmem : '.' ∈ front ++ ['/'] := hprefix.elim (fun h => h.subset (by simp)) fun h =>
      h.subset (by simp)
    rw [List.all_eq_false]
    exact ⟨'.', hmem, by decide⟩
  have hdirectory : directoryText path = String.ofList (front.rdropWhile (· = '/')) := by
    rw [directoryText, hhead, dropSlashes, hdots, if_neg (by simp),
      List.rdropWhile_concat_pos _ _ _ (by simp)]
  have htext : onward path next =
      String.ofList (front.rdropWhile (· = '/') ++ '/' :: next.toList) := by
    apply String.toList_injective
    simp [onward, hdirectory]
  rw [htext, isRelative_slash_iff, String.toList_ofList, Path.namesIn_append,
    Path.namesIn_rdropWhile]
  exact ⟨rfl, hprefix.imp (@prefix_rdropWhile front ['.'] (by decide))
    (@prefix_rdropWhile front ['.', '.'] (by decide))⟩

/-! ### The unit of a relative import -/

def importedPath (importer path : String) : Path :=
  ⟨.of (directoryChars importer.toList),
    Path.namesIn (directoryChars importer.toList) ++ Path.namesIn path.toList⟩

/-- The path to a relative import leads on from the directory of the importing unit. -/
theorem importedPath_eq (importer path : String) : importedPath importer path =
    ⟨(directory importer).anchor, (directory importer).names ++ Path.namesIn path.toList⟩ := by
  simp only [importedPath, directory, Path.ofString_eq, String.toList_ofList]

/-- The unit of a relative import depends on the import through its names alone. -/
theorem unitName_relative (hrelative : isRelative path = true) :
    unitName importer path = (importedPath importer path).collapse.text := by
  obtain ⟨rest, hrest⟩ := List.head?_eq_some_iff.mp (head?_of_isRelative hrelative)
  have hnames := Path.namesIn_append_of_slash (directoryChars_cases importer.toList) path.toList
  have hanchor : Anchor.of (directoryChars importer.toList ++ path.toList) =
      .of (directoryChars importer.toList) := by
    rw [hrest, Path.anchor_append (by decide)]
  unfold unitName importedPath
  simp only [if_pos hrelative, Path.ofString_eq, String.toList_ofList, hnames, hanchor]

/-- The unit of a relative import has a canonical name. -/
theorem canonical_unitName (hrelative : isRelative path = true) :
    canonical (unitName importer path) = unitName importer path := by
  unfold unitName
  rw [if_pos hrelative, canonical_text_collapse]

/-- A detour in an import path keeps it relative and leads to the same unit. -/
theorem unitName_respelled (h : Respelled path other) :
    (isRelative path = true ↔ isRelative other = true) ∧
      (isRelative path = true → unitName importer path = unitName importer other) := by
  cases h with
  | insert front back hdetour =>
    rename_i detour
    have hrelative : isRelative (String.ofList (front ++ '/' :: back)) = true ↔
        isRelative (String.ofList (front ++ '/' :: (detour ++ back))) = true := by
      rw [isRelative_slash_iff, isRelative_slash_iff]
    refine ⟨hrelative, fun hpath => ?_⟩
    rw [unitName_relative hpath, unitName_relative (hrelative.mp hpath)]
    unfold importedPath
    rw [String.toList_ofList, String.toList_ofList, Path.namesIn_append, Path.namesIn_append]
    cases hdetour with
    | dot | slash => rfl
    | @back name hname hordinary =>
      have hback : Path.namesIn (name.toList ++ ['/', '.', '.', '/'] ++ back) =
          name :: ".." :: Path.namesIn back := by
        have hdots : Path.namesIn ('.' :: '.' :: '/' :: back) = ".." :: Path.namesIn back :=
          Path.namesIn_append ['.', '.'] back
        rw [List.append_assoc, List.cons_append, Path.namesIn_append, Path.namesIn_name hname]
        simpa using hdots
      rw [hback, ← List.append_assoc, ← List.append_assoc, Path.collapse_back hordinary]

/-- Spellings that differ by detours name the same unit. -/
theorem unitName_spelling (h : Relation.EqvGen Respelled path other) :
    (isRelative path = true ↔ isRelative other = true) ∧
      (isRelative path = true → unitName importer path = unitName importer other) := by
  induction h with
  | rel path other h => exact unitName_respelled h
  | refl path => exact ⟨Iff.rfl, fun _ => rfl⟩
  | symm path other _ ih => exact ⟨ih.1.symm, fun hother => (ih.2 (ih.1.mpr hother)).symm⟩
  | trans path middle other _ _ first second =>
    exact ⟨first.1.trans second.1, fun hpath =>
      (first.2 hpath).trans (second.2 (first.1.mp hpath))⟩

/-- An import inside an imported unit leads on from the directory of the first import. -/
theorem unitName_unitName (hrelative : isRelative path = true) (hends : EndsInName path)
    (hnext : isRelative next = true) :
    unitName (unitName importer path) next = unitName importer (onward path next) := by
  obtain ⟨front, name, hpath, hname, hordinary⟩ := hends
  obtain ⟨honwardNames, honward⟩ := onward_eq hrelative hpath hname.slashless next
  have hnames : Path.namesIn path.toList = Path.namesIn front ++ [name] := by
    rw [hpath, Path.namesIn_append, Path.namesIn_name hname]
  let anchor := Anchor.of (directoryChars importer.toList)
  let before := Path.namesIn (directoryChars importer.toList) ++ Path.namesIn front
  let stem := (Path.collapse ⟨anchor, before⟩).names
  have hcollapsed : (importedPath importer path).collapse = ⟨anchor, stem ++ [name]⟩ := by
    rw [importedPath, hnames, ← List.append_assoc, ← Path.names_collapse_concat hordinary]
    rfl
  have hunit : directory (unitName importer path) = ⟨anchor, stem⟩ := by
    rw [unitName_relative hrelative]
    have hkept : ∀ other ∈ (importedPath importer path).collapse.names, Path.IsName other := by
      refine fun other hmem => Path.isName_of_mem_collapse ?_ hmem
      intro other hother
      exact (List.mem_append.mp hother).elim Path.isName_of_mem_namesIn Path.isName_of_mem_namesIn
    rw [directory_text hkept, hcollapsed, Path.parent, List.dropLast_concat]
  have hnextPath : importedPath (unitName importer path) next =
      ⟨anchor, stem ++ Path.namesIn next.toList⟩ := by
    rw [importedPath_eq, hunit]
  rw [unitName_relative hnext, hnextPath, Path.collapse_append, unitName_relative honward,
    importedPath, honwardNames, ← List.append_assoc]

/-- An import that leads on from the directory of a relative one ends in the name that it ends in.
-/
theorem EndsInName.onward (h : EndsInName next) : EndsInName (onward path next) := by
  obtain ⟨front, name, hnext, hname⟩ := h
  refine ⟨(directoryText path).toList ++ '/' :: front, name, ?_, hname⟩
  simp [Import.onward, hnext]

/-- A chain of relative imports, each inside the unit of the one before, leads to the unit that the
first importer would have imported by the way through all their directories. -/
theorem unitName_chain {hops : List String} (hrelative : isRelative path = true)
    (hhops : ∀ hop ∈ hops, isRelative hop = true)
    (hends : ∀ hop ∈ (path :: hops).dropLast, EndsInName hop) :
    hops.foldl unitName (unitName importer path) = unitName importer (hops.foldl onward path) := by
  induction hops generalizing path with
  | nil => rfl
  | cons next rest ih =>
    have hpath : EndsInName path := hends path (by simp)
    obtain ⟨front, name, htext, hname, -⟩ := id hpath
    have honward := (onward_eq hrelative htext hname.slashless next).2
    rw [List.foldl_cons, List.foldl_cons,
      unitName_unitName hrelative hpath (hhops next (List.mem_cons_self ..))]
    refine ih honward (fun hop hhop => hhops hop (List.mem_cons_of_mem _ hhop)) ?_
    intro hop hhop
    cases rest with
    | nil => simp at hhop
    | cons second others =>
      rw [List.dropLast_cons_cons] at hhop hends
      rcases List.mem_cons.mp hhop with rfl | hlater
      · exact (hends next (by simp)).onward
      · exact hends hop (by simp [hlater])

/-! ### One unit in all spellings -/

/-- The unit of a relative import under all spellings of the import. -/
structure OneUnit (importer path : String) : Prop where
  canonical : Files.canonical (unitName importer path) = unitName importer path
  respelled : ∀ other, Relation.EqvGen Respelled path other →
    isRelative other = true ∧ unitName importer other = unitName importer path
  /-- If the import ends in an ordinary name, an import inside its unit is the import by the way
  through its directory. -/
  composed : EndsInName path → ∀ next, isRelative next = true →
    unitName (unitName importer path) next = unitName importer (directoryText path ++ "/" ++ next)
  chained : ∀ hops : List String, (∀ hop ∈ hops, isRelative hop = true) →
    (∀ hop ∈ (path :: hops).dropLast, EndsInName hop) →
    hops.foldl unitName (unitName importer path) = unitName importer (hops.foldl onward path)
  read_once : ∀ (read : String → Reading) (entry text : String) (limit : Nat),
    ((Walk.start entry text).run read limit).asked.count (unitName importer path) ≤ 1
  /-- A walk that ends has read it if the text of the importer is found and imports it in any
  spelling, unless it is the entry of the walk. -/
  read_if_imported : ∀ (resolve : String → Except String String) (entry text : String) (limit : Nat)
    (found other : String),
    ((Walk.start entry text).run (Walk.answering resolve) limit).pending = [] →
    (importer, found) ∈ ((Walk.start entry text).run (Walk.answering resolve) limit).sources →
    other ∈ Source.findImports found → Relation.EqvGen Respelled path other →
    unitName importer path ≠ entry →
      ((Walk.start entry text).run (Walk.answering resolve) limit).asked.count
        (unitName importer path) = 1

theorem count_asked_le_one (read : String → Reading) (entry text : String) (limit : Nat)
    (name : String) : ((Walk.start entry text).run read limit).asked.count name ≤ 1 := by
  have honce := (Walk.run_recorded read entry text limit).once
  exact List.nodup_iff_count_le_one.mp (List.nodup_cons.mp honce).2 name

theorem unitName_other_spelling (hrelative : isRelative path = true)
    (hother : Relation.EqvGen Respelled path other) :
    isRelative other = true ∧ unitName importer other = unitName importer path := by
  obtain ⟨hiff, hsame⟩ := unitName_spelling hother
  exact ⟨hiff.mp hrelative, (hsame hrelative).symm⟩

/-- A relative import names one unit, whatever way it is spelled, and that unit is read once. -/
theorem relative_import_names_one_unit (importer : String) {path : String}
    (hrelative : isRelative path = true) : OneUnit importer path where
  canonical := canonical_unitName hrelative
  respelled := fun _ hother => unitName_other_spelling hrelative hother
  composed := fun hends _ hnext => unitName_unitName hrelative hends hnext
  chained := fun _ hhops hends => unitName_chain hrelative hhops hends
  read_once := fun read entry text limit => count_asked_le_one read entry text limit _
  read_if_imported := by
    intro resolve entry text limit found other hended himporter hother hspelling hnew
    have hw := (Walk.Takes.start.run limit).ended hended
    have himported : unitName importer path ∈ Walk.imported importer found := by
      rw [← (unitName_other_spelling hrelative hspelling).2]
      exact List.mem_map_of_mem hother
    have hasked := hw.mem_asked himporter himported hnew
    exact le_antisymm (count_asked_le_one ..) (List.count_pos_iff.mpr hasked)

/-- An import with a detour names the same unit as the import without it, from a unit at the root of
the file system. -/
theorem detour_names_one_unit : isRelative "../lib/Math.sol" = true ∧
    OneUnit "//src/token/ERC20.sol" "../lib/Math.sol" ∧
    unitName "//src/token/ERC20.sol" "../lib/Math.sol" = "//src/lib/Math.sol" ∧
    unitName "//src/token/ERC20.sol" "..//lib/./x/../Math.sol" = "//src/lib/Math.sol" ∧
    EndsInName "../lib/Math.sol" ∧
    unitName "//src/lib/Math.sol" "../../../SafeCast.sol" = "//SafeCast.sol" := by
  have hrelative : isRelative "../lib/Math.sol" = true := by decide +kernel
  refine ⟨hrelative, relative_import_names_one_unit _ hrelative, by decide +kernel,
    by decide +kernel, ⟨"../lib".toList, "Math.sol", by decide +kernel, ?_, by decide⟩,
    by decide +kernel⟩
  exact ⟨by decide, by decide, by decide +kernel⟩

end AuditHours.Import
