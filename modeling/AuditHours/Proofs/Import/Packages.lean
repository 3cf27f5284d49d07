import AuditHours.Proofs.Import.RelativePath
import Mathlib.Tactic.ByContra

/-!
Where the names of packages lead. What stands behind the package prefix is read from the directory
of the vendored packages, as a path is read from another one. So its components follow those of the
directory, unless it starts with a slash: then it is a path of its own, and the directory plays no
part.
-/
namespace AuditHours.Files

/-- The pieces of a text between its slashes, without empty ones and single dots. -/
def components (s : String) : List String :=
  ((s.toList.splitOn '/').filter fun piece => piece ∉ [[], ['.']]).map String.ofList

/-- Splitting at slashes is the splitting of lists. -/
theorem splitSlash_eq_splitOn (cs : List Char) : splitSlash cs = cs.splitOn '/' := by
  induction cs with
  | nil => simp [splitSlash]
  | cons c rest ih =>
    rw [List.splitOn, List.splitOnP_cons_eq_if_modifyHead, ← List.splitOn, ← ih]
    by_cases hc : c = '/'
    · subst hc
      rfl
    · obtain ⟨piece, others, hrest⟩ := splitSlash_cases rest
      rw [splitSlash_cons hc hrest, hrest]
      simp [hc]

theorem names_ofString (s : String) : (Path.ofString s).names = components s := by
  rw [Path.ofString_eq, Path.namesIn, components, splitSlash_eq_splitOn]
  refine congrArg (List.map String.ofList) (List.filter_congr ?_)
  intro piece _
  by_cases hempty : piece = [] <;> by_cases hdot : piece = ['.'] <;> simp [hempty, hdot]

/-- Behind a text that is empty or ends in a slash the components of another text are kept. -/
theorem mem_components_append {pre : String} (hpre : pre.toList.getLast?.all (· = '/'))
    {rest name : String} (h : name ∈ components rest) : name ∈ components (pre ++ rest) := by
  rw [← names_ofString, Path.ofString_eq] at h ⊢
  simp only [String.toList_append]
  rcases List.eq_nil_or_concat pre.toList with hnil | ⟨front, last, hlast⟩
  · rw [hnil]
    exact h
  · rw [hlast] at hpre ⊢
    obtain rfl : last = '/' := by simpa using hpre
    rw [List.concat_eq_append, List.append_assoc, List.singleton_append, Path.namesIn_append]
    exact List.mem_append_right _ h

end AuditHours.Files

namespace AuditHours.Import

open Files

def StartsAtRoot (s : String) : Prop := s.toList.head? = some '/'

namespace Resolver

variable {r : Resolver} {rest : String}

/-- How a name behind the package prefix is read. -/
structure ReadsPackage (r : Resolver) (rest : String) : Prop where
  /-- The path has the components of the vendored directory and those of the name, unless the name
  starts with a slash; then only if the directory is the very root that the name starts at. -/
  components : r.path (r.packagePrefix ++ rest) =
      ⟨r.vendorBase.anchor, r.vendorBase.names ++ Files.components rest⟩ ↔
    ¬ StartsAtRoot rest ∨ r.vendorBase = ⟨.of rest.toList, []⟩
  below : ".." ∉ Files.components rest → ∀ workingDirectory : Place,
    r.vendorBase.place workingDirectory <+:
        (r.path (r.packagePrefix ++ rest)).place workingDirectory ↔
      ¬ StartsAtRoot rest ∨ r.vendorBase.place workingDirectory <+: Files.components rest
  source : ∀ tree text, r.reading tree (r.packagePrefix ++ rest) = .text text →
    ∃ bytes, tree.lookup? ((r.path (r.packagePrefix ++ rest)).place tree.workingDirectory) =
        some (.file bytes) ∧ textOfBytes bytes = .ok text
  /-- A double dot can stand behind the prefix only if the prefix ends within a component. -/
  dotted : ".." ∈ Files.components rest → ∃ c, r.packagePrefix.toList.getLast? = some c ∧ c ≠ '/'

theorem packageRest?_append (r : Resolver) (rest : String) :
    r.packageRest? (r.packagePrefix ++ rest) = some rest := by
  unfold packageRest?
  rw [String.toList_append, Version.dropPrefix?_append, Option.map_some, String.ofList_toList]

theorem path_package (r : Resolver) (rest : String) :
    r.path (r.packagePrefix ++ rest) = r.vendorBase.join (.ofString rest) := by
  unfold path
  rw [packageRest?_append]

theorem path_relative (h : ¬ StartsAtRoot rest) : r.path (r.packagePrefix ++ rest) =
    ⟨r.vendorBase.anchor, r.vendorBase.names ++ components rest⟩ := by
  have hrelative : ¬ (Path.ofString rest).isAbsolute = true := by
    rw [isAbsolute_ofString]
    exact h
  rw [path_package, Path.join, if_neg hrelative, names_ofString]

theorem path_rooted (h : StartsAtRoot rest) :
    r.path (r.packagePrefix ++ rest) = ⟨.of rest.toList, components rest⟩ := by
  rw [path_package, Path.join, if_pos ((isAbsolute_ofString rest).mpr h), ← names_ofString]
  rfl

theorem place_relative (h : ¬ StartsAtRoot rest) (hdots : ".." ∉ components rest)
    (workingDirectory : Place) :
    (r.path (r.packagePrefix ++ rest)).place workingDirectory =
      r.vendorBase.place workingDirectory ++ components rest := by
  rw [path_relative h, Path.place, List.foldl_append]
  apply foldl_enter_of_ordinary
  rintro name hname rfl
  exact hdots hname

theorem place_rooted (h : StartsAtRoot rest) (hdots : ".." ∉ components rest)
    (workingDirectory : Place) :
    (r.path (r.packagePrefix ++ rest)).place workingDirectory = components rest := by
  have habsolute := (isAbsolute_ofString rest).mpr h
  have hpath : r.path (r.packagePrefix ++ rest) = .ofString rest := by
    rw [path_package, Path.join, if_pos habsolute]
  rw [hpath, Path.place, if_pos habsolute, names_ofString]
  rw [foldl_enter_of_ordinary, List.nil_append]
  rintro name hname rfl
  exact hdots hname

/-- A name of a package that has no double dots is read below the directory of the vendored packages
unless what stands behind the prefix starts with a slash. -/
theorem package_read_below (r : Resolver) (rest : String)
    (hdots : ".." ∉ Files.components (r.packagePrefix ++ rest)) : r.ReadsPackage rest where
  components := by
    by_cases hroot : StartsAtRoot rest
    · rw [path_rooted hroot]
      obtain ⟨anchor, names⟩ := r.vendorBase
      simp [hroot, eq_comm]
    · simp [path_relative hroot, hroot]
  below := by
    intro hnone workingDirectory
    by_cases hroot : StartsAtRoot rest
    · simp [place_rooted hroot hnone, hroot]
    · simp [place_relative hroot hnone, hroot]
  source := by
    intro tree text h
    have hread : tree.readText (r.path (r.packagePrefix ++ rest)) = .ok text := by
      unfold reading at h
      split at h <;> simp_all
    obtain ⟨place, bytes, hlocate, hfile, hbytes⟩ := Tree.readText_eq_ok.mp hread
    rw [← Tree.locate_eq hlocate]
    exact ⟨bytes, hfile, hbytes⟩
  dotted := by
    intro hmem
    by_contra hslash
    refine hdots (mem_components_append ?_ hmem)
    cases hlast : r.packagePrefix.toList.getLast? with
    | none => rfl
    | some c =>
      by_cases hc : c = '/'
      · simp [hc]
      · exact absurd ⟨c, hlast, hc⟩ hslash

/-- An ordinary name of a package is read below the directory of the packages. -/
theorem package_read_below_standard :
    ".." ∉ Files.components ("@openzeppelin/" ++ "token/./ERC20.sol") ∧
    (ofBase standardBase).ReadsPackage "token/./ERC20.sol" ∧
    (ofBase standardBase).path "@openzeppelin/token/./ERC20.sol" =
      ⟨.relative, ["node_modules", "@openzeppelin", "token", "ERC20.sol"]⟩ := by
  have hdots : ".." ∉ Files.components ("@openzeppelin/" ++ "token/./ERC20.sol") := by
    decide +kernel
  refine ⟨hdots, ?_, by decide +kernel⟩
  exact package_read_below (ofBase standardBase) "token/./ERC20.sol" hdots

def rootFile : Files.Tree where
  workingDirectory := ["work"]
  entries := [(["work"], .directory), (["etc.sol"], .file [0x2f, 0x2f])]

/-- A name with a second slash behind the prefix is read from the root. -/
theorem second_slash_leaves_packages :
    ".." ∉ Files.components "@openzeppelin//etc.sol" ∧
    (ofBase standardBase).vendorBase.names ++ Files.components "/etc.sol" =
      ["node_modules", "@openzeppelin", "etc.sol"] ∧
    (ofBase standardBase).path "@openzeppelin//etc.sol" = ⟨.root, ["etc.sol"]⟩ ∧
    (ofBase standardBase).reading rootFile "@openzeppelin//etc.sol" = .text "//" := by
  decide +kernel

end Resolver

end AuditHours.Import
