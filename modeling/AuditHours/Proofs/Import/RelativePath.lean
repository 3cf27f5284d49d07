import AuditHours.Import.Closure
import AuditHours.Proofs.Files.Places
import Mathlib.Data.List.TakeWhile

/-!
Where relative imports lead. The unit that a relative import names inside an importing unit leads to
the place where the import leads from the directory of the importing unit. A unit that is compiled
under a name without a directory has the working directory for its own.
-/
namespace AuditHours.Import

open Files

/-- The directory that the name of a unit or of a file stands in. -/
def directory (name : String) : Path := .ofString (String.ofList (directoryChars name.toList))

/-- The file that an import names when it is resolved against the importing file. -/
def beside (importer imported : String) : Path := .ofString (unitName importer imported)

theorem directoryChars_cases (cs : List Char) :
    directoryChars cs = [] ∨ ∃ front, directoryChars cs = front ++ ['/'] := by
  unfold directoryChars
  cases hrest : cs.reverse.dropWhile (· != '/') with
  | nil => exact Or.inl rfl
  | cons c rest =>
    have hc : (c != '/') = false := by
      have hhead := List.head?_dropWhile_not (· != '/') cs.reverse
      simpa [hrest] using hhead
    obtain rfl : c = '/' := by simpa using hc
    exact Or.inr ⟨rest.reverse, by simp⟩

theorem isAbsolute_ofString (s : String) :
    (Path.ofString s).isAbsolute = true ↔ s.toList.head? = some '/' := by
  rw [Path.ofString_eq]
  cases s.toList with
  | nil => simp [Path.isAbsolute, Anchor.of]
  | cons c cs =>
    by_cases hc : c = '/'
    · subst hc
      unfold Anchor.of
      split <;> simp_all [Path.isAbsolute]
    · simp [Path.isAbsolute, Path.anchor_of_cons hc, hc]

theorem head?_of_isRelative {imported : String} (h : isRelative imported = true) :
    imported.toList.head? = some '.' := by
  unfold isRelative at h
  cases hcs : imported.toList with
  | nil => simp [hcs] at h
  | cons c cs =>
    rw [hcs] at h
    simp only [Bool.or_eq_true, List.isPrefixOf_cons_cons, Bool.and_eq_true, beq_iff_eq] at h
    rcases h with h | h
    · simp [← h.1]
    · simp [← h.1]

theorem not_isAbsolute_of_isRelative {imported : String} (h : isRelative imported = true) :
    (Path.ofString imported).isAbsolute = false := by
  rw [← Bool.not_eq_true, isAbsolute_ofString, head?_of_isRelative h]
  decide

/-- A text behind the text of a directory leads on from the directory. -/
theorem place_directory_append (workingDirectory : Place) {directory : List Char} (s : String)
    (hdirectory : directory = [] ∨ ∃ front, directory = front ++ ['/'])
    (hs : (Path.ofString s).isAbsolute = false) :
    (Path.ofString (String.ofList (directory ++ s.toList))).place workingDirectory =
      (Path.ofString s).place
        ((Path.ofString (String.ofList directory)).place workingDirectory) := by
  rcases hdirectory with rfl | ⟨front, rfl⟩
  · have hempty : (Path.ofString (String.ofList [])).place workingDirectory = workingDirectory :=
      rfl
    rw [hempty, List.nil_append, String.ofList_toList]
  · have hanchor : (Path.ofString (String.ofList (front ++ ['/'] ++ s.toList))).isAbsolute =
        (Path.ofString (String.ofList (front ++ ['/']))).isAbsolute := by
      rw [Bool.eq_iff_iff, isAbsolute_ofString, isAbsolute_ofString]
      cases front <;> simp
    have hnames : (Path.ofString (String.ofList (front ++ ['/'] ++ s.toList))).names =
        (Path.ofString (String.ofList (front ++ ['/']))).names ++ (Path.ofString s).names := by
      simp only [Path.ofString_eq, String.toList_ofList]
      rw [List.append_assoc, List.singleton_append, Path.namesIn_append,
        Path.namesIn_append front []]
      simp [Path.namesIn, splitSlash]
    unfold Path.place
    rw [hanchor, hnames, List.foldl_append, hs]
    rfl

/-- A relative import leads on from the directory of the importing unit. -/
theorem place_beside (workingDirectory : Place) (importer : String) {imported : String}
    (h : isRelative imported = true) :
    (beside importer imported).place workingDirectory =
      (Path.ofString imported).place ((directory importer).place workingDirectory) := by
  unfold beside unitName
  rw [if_pos h]
  rw [Path.ofString_text_collapse, Path.place_collapse]
  exact place_directory_append workingDirectory imported (directoryChars_cases importer.toList)
    (not_isAbsolute_of_isRelative h)

/-- A name without a directory stands in the working directory. -/
theorem place_directory_of_no_slash (workingDirectory : Place) {name : String}
    (h : '/' ∉ name.toList) : (directory name).place workingDirectory = workingDirectory := by
  have hnone : directoryChars name.toList = [] := by
    unfold directoryChars
    rw [List.reverse_eq_nil_iff, List.dropWhile_eq_nil_iff]
    intro c hc
    rw [bne_iff_ne]
    rintro rfl
    exact h (List.mem_reverse.mp hc)
  unfold directory
  rw [hnone]
  rfl

/-- A name is the text of its directory and a last piece. -/
theorem directoryChars_append (cs : List Char) :
    ∃ last, cs = directoryChars cs ++ last ∧ '/' ∉ last := by
  refine ⟨(cs.reverse.takeWhile (· != '/')).reverse, ?_, ?_⟩
  · unfold directoryChars
    rw [← List.reverse_append, List.takeWhile_append_dropWhile, List.reverse_reverse]
  · intro hslash
    have hkept := List.mem_takeWhile_imp (List.mem_reverse.mp hslash)
    simp at hkept

/-- A file stands at most one step below its directory. -/
theorem length_place_le (workingDirectory : Place) (name : String) :
    ((Path.ofString name).place workingDirectory).length ≤
      ((directory name).place workingDirectory).length + 1 := by
  obtain ⟨last, hname, hlast⟩ := directoryChars_append name.toList
  have hrelative : (Path.ofString (String.ofList last)).isAbsolute = false := by
    rw [← Bool.not_eq_true, isAbsolute_ofString, String.toList_ofList]
    intro hhead
    exact hlast (List.mem_of_head? hhead)
  have hplace := place_directory_append workingDirectory (String.ofList last)
    (directoryChars_cases name.toList) hrelative
  rw [String.toList_ofList, ← hname, String.ofList_toList] at hplace
  have hnames : (Path.ofString (String.ofList last)).names.length ≤ 1 := by
    rw [Path.ofString_eq, String.toList_ofList]
    unfold Path.namesIn
    rw [splitSlash_of_not_mem hlast, List.length_map]
    exact List.length_filter_le _ _
  have hlength := length_foldl_enter_le (Path.ofString (String.ofList last)).names
    ((directory name).place workingDirectory)
  rw [hplace, Path.place, hrelative]
  simp only [Bool.false_eq_true, if_false]
  exact Nat.le_trans hlength (Nat.add_le_add_left hnames _)

/-- A relative import into the packages leads straight down from their name. -/
theorem unitName_packaged {importer imported : String} {rest : List Char}
    (hrelative : isRelative imported = true)
    (hrest : (unitName importer imported).toList = "@openzeppelin".toList ++ '/' :: rest) :
    (beside importer imported).names = "@openzeppelin" :: Path.namesIn rest ∧
      (beside importer imported).isAbsolute = false ∧
      (Path.ofString (String.ofList rest)).isAbsolute = false ∧
      ∀ name ∈ Path.namesIn rest, name ≠ ".." := by
  have hcollapse : ∃ p : Path, beside importer imported = p.collapse ∧
      unitName importer imported = p.collapse.text := by
    unfold beside unitName
    rw [if_pos hrelative]
    exact ⟨_, Path.ofString_text_collapse _, rfl⟩
  obtain ⟨p, hbeside, htext⟩ := hcollapse
  have hpackage : Path.IsName "@openzeppelin" := by constructor <;> decide
  have hnames : (beside importer imported).names = "@openzeppelin" :: Path.namesIn rest := by
    unfold beside
    rw [Path.ofString_eq, hrest, Path.namesIn_append, Path.namesIn_name hpackage]
    rfl
  have hanchor : (beside importer imported).isAbsolute = false := by
    unfold beside
    rw [← Bool.not_eq_true, isAbsolute_ofString, hrest]
    simp
  refine ⟨hnames, hanchor, ?_, ?_⟩
  · have hrelativePath : p.collapse.anchor = .relative := by
      rw [hbeside] at hanchor
      simpa [Path.isAbsolute] using hanchor
    rw [hbeside] at hnames
    have hchars : ("/".intercalate ("@openzeppelin" :: Path.namesIn rest)).toList =
        "@openzeppelin".toList ++ '/' :: rest := by
      rw [← hrest, htext, Path.text, hrelativePath, hnames]
      simp [Anchor.text]
    cases hpieces : Path.namesIn rest with
    | nil =>
      rw [hpieces] at hchars
      simp at hchars
    | cons piece others =>
      rw [hpieces] at hchars
      have hnamed : ∀ name ∈ piece :: others, Path.IsName name := by
        intro name hname
        rw [← hpieces] at hname
        exact Path.isName_of_mem_namesIn hname
      obtain ⟨c, cs, hcs, hc⟩ := Path.intercalate_head hnamed (by simp)
      have hrestChars : rest = c :: cs := by
        simpa [String.intercalate_cons_cons, ← hcs] using hchars.symm
      rw [← Bool.not_eq_true, isAbsolute_ofString, String.toList_ofList, hrestChars]
      simpa using hc
  · intro name hname hdots
    have hordered := p.pairwise_collapse
    rw [← hbeside, hnames] at hordered
    have hfirst := List.rel_of_pairwise_cons hordered hname hdots
    simp at hfirst

end AuditHours.Import
