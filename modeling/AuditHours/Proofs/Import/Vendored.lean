import AuditHours.Proofs.Import.Gathering
import AuditHours.Proofs.Import.Packages
import AuditHours.Proofs.Import.Spelling

/-!
Imports between vendored files. The name of a vendored unit is the package prefix and the way to the
file from the directory of the packages. A relative import that stays inside that directory can be
named first and mapped to a file then, or it can be followed on disk from the importing file; both
lead to the same place. So does a chain of such imports.
-/
namespace AuditHours.Import

open Files

/-! ### Plain paths -/

/-- A name that leads straight down. -/
structure IsOrdinary (name : String) : Prop where
  isName : Path.IsName name
  notDots : name ≠ ".."

instance (name : String) : Decidable (IsOrdinary name) :=
  decidable_of_iff (name ≠ "" ∧ name ≠ "." ∧ '/' ∉ name.toList ∧ name ≠ "..")
    ⟨fun ⟨hfilled, hdot, hslash, hdots⟩ => ⟨⟨hfilled, hdot, hslash⟩, hdots⟩,
      fun h => ⟨h.isName.filled, h.isName.notDot, h.isName.slashless, h.notDots⟩⟩

inductive IsPlain : String → Prop
  | names {names : List String} (h : ∀ name ∈ names, IsOrdinary name) :
      IsPlain ("/".intercalate names)

/-- A prefix of package names: a relative path of ordinary names with a slash behind it. -/
inductive IsPackagePrefix : String → Prop
  | names {package : List String} (h : ∀ name ∈ package, IsOrdinary name) (hne : package ≠ []) :
      IsPackagePrefix ("/".intercalate package ++ "/")

def relocated (file path : String) : String :=
  canonical (String.ofList (directoryChars file.toList ++ path.toList))

/-- A canonical path leads to something below where it starts. A first name that only begins with
two dots does not lead up. -/
structure LeadsBelow (path : String) : Prop where
  notDot : path ≠ "."
  notDots : path ≠ ".."
  notAbove : ¬ ['.', '.', '/'] <+: path.toList

instance (path : String) : Decidable (LeadsBelow path) :=
  decidable_of_iff (path ≠ "." ∧ path ≠ ".." ∧ ¬ ['.', '.', '/'] <+: path.toList)
    ⟨fun ⟨hdot, hdots, habove⟩ => ⟨hdot, hdots, habove⟩,
      fun h => ⟨h.notDot, h.notDots, h.notAbove⟩⟩

/-- Each import of a chain, taken from the directory of the file before, stays below where the first
file is named from. -/
inductive ChainBelow : String → List String → Prop
  | nil (file : String) : ChainBelow file []
  | cons {file path : String} {hops : List String} (hrelative : isRelative path = true)
      (hbelow : LeadsBelow (relocated file path)) (hrest : ChainBelow (relocated file path) hops) :
      ChainBelow file (path :: hops)

section

variable {names package base : List String} {rest path file : String} {front : List Char}

/-- Names that do not climb below an empty stack are stacked in the same way on other names. -/
theorem foldl_pushName_base (h : ".." ∉ names.foldl (Path.pushName .relative) [])
    (base : List String) : names.foldl (Path.pushName .relative) base =
      names.foldl (Path.pushName .relative) [] ++ base := by
  induction names using List.reverseRecOn with
  | nil => rfl
  | append_singleton names name ih =>
    rw [List.foldl_concat] at h ⊢
    rw [List.foldl_concat]
    generalize hstack : names.foldl (Path.pushName .relative) [] = stack at h ih ⊢
    by_cases hname : name = ".."
    · subst hname
      cases stack with
      | nil => simp [Path.pushName] at h
      | cons top below =>
        have htop : top ≠ ".." := by
          rintro rfl
          simp [Path.pushName] at h
        have hbelow : ".." ∉ below := by simpa [Path.pushName, htop] using h
        rw [ih (by simp [Ne.symm htop, hbelow])]
        simp [Path.pushName, htop]
    · rw [Path.pushName_ordinary hname] at h ⊢
      rw [ih (fun hmem => h (List.mem_cons_of_mem _ hmem)), Path.pushName_ordinary hname]
      rfl

/-- Ordinary names are stacked one on the other. -/
theorem foldl_pushName_ordinary (h : ∀ name ∈ names, IsOrdinary name) (base : List String) :
    names.foldl (Path.pushName .relative) base = names.reverse ++ base := by
  induction names generalizing base with
  | nil => rfl
  | cons name rest ih =>
    rw [List.foldl_cons, Path.pushName_ordinary (h name (List.mem_cons_self ..)).notDots,
      ih fun other hother => h other (List.mem_cons_of_mem _ hother)]
    simp

/-- Names that stay below where they start are collapsed in the same way behind ordinary names. -/
theorem collapse_behind (hpackage : ∀ name ∈ package, IsOrdinary name)
    (hbelow : ".." ∉ (Path.collapse ⟨.relative, names⟩).names) :
    Path.collapse ⟨.relative, package ++ names⟩ =
      ⟨.relative, package ++ (Path.collapse ⟨.relative, names⟩).names⟩ := by
  unfold Path.collapse at hbelow ⊢
  rw [List.mem_reverse] at hbelow
  simp only []
  rw [List.foldl_append, foldl_pushName_ordinary hpackage, foldl_pushName_base hbelow]
  simp

/-- A collapsed relative path whose text leads below holds names, and no double dot is among them.
-/
theorem names_of_leadsBelow (h : LeadsBelow (Path.collapse ⟨.relative, names⟩).text) :
    (Path.collapse ⟨.relative, names⟩).names ≠ [] ∧
      ".." ∉ (Path.collapse ⟨.relative, names⟩).names := by
  have hanchor : (Path.collapse ⟨.relative, names⟩).anchor = .relative := rfl
  have hordered := Path.pairwise_collapse ⟨.relative, names⟩
  generalize Path.collapse ⟨.relative, names⟩ = p at h hanchor hordered ⊢
  obtain ⟨anchor, found⟩ := p
  subst hanchor
  obtain ⟨hdot, hdots, habove⟩ := h
  cases found with
  | nil => exact absurd rfl hdot
  | cons first others =>
    refine ⟨by simp, fun hmem => ?_⟩
    -- double dots stand in front of all other names, so the first name is one
    have hfirst : first = ".." := by
      rcases List.mem_cons.mp hmem with hfirst | hlater
      · exact hfirst.symm
      · exact List.rel_of_pairwise_cons hordered hlater rfl
    subst hfirst
    cases others with
    | nil => exact hdots rfl
    | cons second others =>
      refine habove ⟨("/".intercalate (second :: others)).toList, ?_⟩
      simp [Path.text, Anchor.text, String.intercalate_cons_cons]

/-! ### Names of vendored units -/

theorem relocated_eq_unitName (hrelative : isRelative path = true) :
    relocated file path = unitName file path := by
  unfold relocated unitName
  rw [if_pos hrelative]
  rfl

/-- Behind nothing or a slash the directory of a file goes on with the directory of what follows. -/
theorem directoryChars_append_of_slash
    (hfront : front = [] ∨ ∃ before, front = before ++ ['/']) (cs : List Char) :
    directoryChars (front ++ cs) = front ++ directoryChars cs := by
  obtain ⟨last, hcs, hlast⟩ := directoryChars_append cs
  have hdirectory : front ++ directoryChars cs = [] ∨
      ∃ before, front ++ directoryChars cs = before ++ ['/'] := by
    rcases directoryChars_cases cs with hnone | ⟨before, hbefore⟩
    · rw [hnone, List.append_nil]
      exact hfront
    · exact Or.inr ⟨front ++ before, by simp [hbefore]⟩
  calc directoryChars (front ++ cs)
      = directoryChars (front ++ directoryChars cs ++ last) := by
        rw [List.append_assoc, ← hcs]
    _ = front ++ directoryChars cs := directoryChars_append_name hlast hdirectory

theorem intercalate_eq_text (hne : names ≠ []) :
    "/".intercalate names = Path.text ⟨.relative, names⟩ := by
  simp [Path.text, Anchor.text, hne]

/-- A plain path reads as the relative path of its names. -/
theorem ofString_intercalate (h : ∀ name ∈ names, IsOrdinary name) :
    Path.ofString ("/".intercalate names) = ⟨.relative, names⟩ := by
  by_cases hne : names = []
  · subst hne
    rfl
  · rw [intercalate_eq_text hne]
    exact Path.ofString_text fun name hname => (h name hname).isName

namespace IsPlain

theorem anchor_eq (h : IsPlain rest) : (Path.ofString rest).anchor = .relative := by
  obtain ⟨h⟩ := h
  rw [ofString_intercalate h]

theorem names_ne_nil (h : IsPlain rest) (hrest : rest ≠ "") : (Path.ofString rest).names ≠ [] := by
  obtain ⟨h⟩ := h
  rw [ofString_intercalate h]
  rintro rfl
  exact hrest rfl

/-- The directory of a plain path is the path without its last name. -/
theorem directory_eq (h : IsPlain rest) : directory rest = (Path.ofString rest).parent := by
  obtain @⟨found, h⟩ := h
  rw [ofString_intercalate h]
  by_cases hne : found = []
  · subst hne
    rfl
  · rw [intercalate_eq_text hne]
    exact directory_text fun name hname => (h name hname).isName

theorem importedPath_eq (h : IsPlain rest) (path : String) : importedPath rest path =
    ⟨.relative, (directory rest).names ++ Path.namesIn path.toList⟩ := by
  have hanchor : (directory rest).anchor = .relative := by
    rw [h.directory_eq]
    exact h.anchor_eq
  rw [Import.importedPath_eq, hanchor]

end IsPlain

/-- A relative import inside a package is an import inside the directory of its packages, with the
names of the prefix in front. -/
theorem importedPath_package (hpackage : ∀ name ∈ package, IsOrdinary name) (hne : package ≠ [])
    (rest path : String) :
    importedPath ("/".intercalate package ++ "/" ++ rest) path =
      ⟨.relative, package ++ (importedPath rest path).names⟩ := by
  obtain ⟨c, cs, hcs, hc⟩ :=
    Path.intercalate_head (fun name hname => (hpackage name hname).isName) hne
  have hdirectory : directoryChars ("/".intercalate package ++ "/" ++ rest).toList =
      ("/".intercalate package).toList ++ '/' :: directoryChars rest.toList := by
    have happend := directoryChars_append_of_slash
      (Or.inr ⟨("/".intercalate package).toList, rfl⟩) rest.toList
    simpa using happend
  have hnames : Path.namesIn ("/".intercalate package).toList = package :=
    Path.namesIn_intercalate fun name hname => (hpackage name hname).isName
  unfold importedPath
  rw [hdirectory, Path.namesIn_append, hnames, hcs, List.cons_append, Path.anchor_of_cons hc,
    List.append_assoc]

/-- A relative import that stays below leads to a plain path. -/
theorem exists_below (hrest : IsPlain rest) (hrelative : isRelative path = true)
    (hbelow : LeadsBelow (relocated rest path)) :
    ∃ names, names ≠ [] ∧ (∀ name ∈ names, IsOrdinary name) ∧
      (importedPath rest path).collapse = ⟨.relative, names⟩ ∧
      relocated rest path = "/".intercalate names := by
  rw [relocated_eq_unitName hrelative, unitName_relative hrelative, hrest.importedPath_eq] at hbelow
  obtain ⟨hne, hdots⟩ := names_of_leadsBelow hbelow
  have hnames : ∀ name ∈ (importedPath rest path).names, Path.IsName name := by
    intro name hname
    exact (List.mem_append.mp hname).elim Path.isName_of_mem_namesIn Path.isName_of_mem_namesIn
  rw [← hrest.importedPath_eq] at hne hdots
  have hcollapse : (importedPath rest path).collapse =
      ⟨.relative, (importedPath rest path).collapse.names⟩ := by
    have hanchor : (importedPath rest path).anchor = .relative := by rw [hrest.importedPath_eq]
    rw [← hanchor]
    rfl
  have hordinary : ∀ name ∈ (importedPath rest path).collapse.names, IsOrdinary name := by
    intro name hname
    exact ⟨hnames name (Path.mem_of_mem_collapse hname), fun hdot => hdots (hdot ▸ hname)⟩
  refine ⟨_, hne, hordinary, hcollapse, ?_⟩
  rw [relocated_eq_unitName hrelative, unitName_relative hrelative, intercalate_eq_text hne,
    ← hcollapse]

/-- A relative import that stays below the directory of the packages is named by the prefix and its
canonical path there. -/
theorem unitName_package {pre : String} (hpre : IsPackagePrefix pre) (hrest : IsPlain rest)
    (hrelative : isRelative path = true) (hbelow : LeadsBelow (relocated rest path)) :
    unitName (pre ++ rest) path = pre ++ relocated rest path := by
  obtain @⟨package, hpackage, hpackageNe⟩ := hpre
  obtain ⟨names, hne, hnames, hcollapse, htext⟩ := exists_below hrest hrelative hbelow
  have himported := hrest.importedPath_eq path
  rw [himported] at hcollapse
  have hdots : ".." ∉ (Path.collapse ⟨.relative, (importedPath rest path).names⟩).names := by
    rw [himported, hcollapse]
    exact fun hmem => (hnames _ hmem).notDots rfl
  have hwhole : (importedPath ("/".intercalate package ++ "/" ++ rest) path).collapse =
      ⟨.relative, package ++ names⟩ := by
    rw [importedPath_package hpackage hpackageNe, collapse_behind hpackage hdots, himported,
      hcollapse]
  rw [unitName_relative hrelative, hwhole, htext, ← intercalate_eq_text (by simp [hne]),
    String.intercalate_append_of_ne_nil hpackageNe hne]

/-! ### Where vendored imports are read -/

namespace IsPlain

theorem relocated (hrest : IsPlain rest) (hrelative : isRelative path = true)
    (hbelow : LeadsBelow (relocated rest path)) :
    IsPlain (Import.relocated rest path) ∧ Import.relocated rest path ≠ "" := by
  obtain ⟨names, hne, hnames, -, htext⟩ := exists_below hrest hrelative hbelow
  rw [htext]
  refine ⟨IsPlain.names hnames, fun hempty => hne ?_⟩
  have hread := ofString_intercalate hnames
  rw [hempty] at hread
  exact (congrArg Path.names hread).symm

/-- The names of a plain path lead straight down. -/
theorem place_eq (h : IsPlain rest) (start : Place) :
    (Path.ofString rest).place start = start ++ (Path.ofString rest).names := by
  obtain ⟨h⟩ := h
  rw [ofString_intercalate h]
  exact foldl_enter_of_ordinary (fun name hname => (h name hname).notDots) start

/-- The directory of a plain path is one step above it. -/
theorem place_directory (h : IsPlain rest) (hrest : rest ≠ "") (start : Place) :
    (directory rest).place start = ((Path.ofString rest).place start).dropLast := by
  have hne := h.names_ne_nil hrest
  rw [h.place_eq, h.directory_eq, List.dropLast_append_of_ne_nil hne]
  obtain ⟨h⟩ := h
  rw [ofString_intercalate h]
  exact foldl_enter_of_ordinary
    (fun name hname => (h name (List.dropLast_subset _ hname)).notDots) start

end IsPlain

/-- A relative path that is read from another one leads on from where the other one leads. -/
theorem place_join {base p : Path} (hp : p.anchor = .relative) (workingDirectory : Place) :
    (base.join p).place workingDirectory = p.place (base.place workingDirectory) := by
  have habsolute : p.isAbsolute = false := by simp [Path.isAbsolute, hp]
  have hjoin : (base.join p).isAbsolute = base.isAbsolute := by
    unfold Path.join
    rw [habsolute]
    rfl
  unfold Path.place
  rw [hjoin, habsolute, Path.names_join hp, List.foldl_append]
  rfl

/-- Names of units along a chain of imports have the prefix in front of the paths along the chain.
-/
theorem ChainBelow.units {pre : String} {hops : List String} (hpre : IsPackagePrefix pre)
    (hrest : IsPlain rest) (h : ChainBelow rest hops) :
    hops.foldl unitName (pre ++ rest) = pre ++ hops.foldl relocated rest := by
  induction h with
  | nil => rfl
  | cons hrelative hbelow _ ih =>
    rw [List.foldl_cons, List.foldl_cons, unitName_package hpre hrest hrelative hbelow]
    exact ih (hrest.relocated hrelative hbelow).1

end

namespace Resolver

/-- Where an import leads on disk from the file that it stands in. -/
def hop (file : Place) (path : String) : Place := (Path.ofString path).place file.dropLast

/-- How the relative imports of a vendored file are read, each on its own and in chains. -/
structure ReadsVendored (r : Resolver) (rest : String) : Prop where
  path_eq : ∀ path, isRelative path = true → LeadsBelow (relocated rest path) →
    r.path (unitName (r.packagePrefix ++ rest) path) =
      r.vendorBase.join (.ofString (relocated rest path))
  /-- A unit is read from where its import leads on disk from the directory of the importing file. -/
  place_eq : rest ≠ "" → ∀ path, isRelative path = true → LeadsBelow (relocated rest path) →
    ∀ workingDirectory, (r.path (unitName (r.packagePrefix ++ rest) path)).place workingDirectory =
      hop ((r.path (r.packagePrefix ++ rest)).place workingDirectory) path
  chain_path : ∀ hops, ChainBelow rest hops →
    r.path (hops.foldl unitName (r.packagePrefix ++ rest)) =
      r.vendorBase.join (.ofString (hops.foldl relocated rest))
  chain_place : rest ≠ "" → ∀ hops, ChainBelow rest hops → ∀ workingDirectory,
    (r.path (hops.foldl unitName (r.packagePrefix ++ rest))).place workingDirectory =
      hops.foldl hop ((r.path (r.packagePrefix ++ rest)).place workingDirectory)
  chain_text : rest ≠ "" → ∀ hops, ChainBelow rest hops → ∀ tree text,
    r.reading tree (hops.foldl unitName (r.packagePrefix ++ rest)) = .text text →
    ∃ bytes, textOfBytes bytes = .ok text ∧
      tree.lookup? (hops.foldl hop
        ((r.path (r.packagePrefix ++ rest)).place tree.workingDirectory)) = some (.file bytes)

variable {r : Resolver} {rest path : String} {hops : List String}

/-- An import inside a vendored file leads to the same place by its name and on disk. -/
theorem place_relocated (hrest : IsPlain rest) (hne : rest ≠ "") (hrelative : isRelative path = true)
    (hbelow : LeadsBelow (relocated rest path)) (workingDirectory : Place) :
    (r.path (r.packagePrefix ++ relocated rest path)).place workingDirectory =
      hop ((r.path (r.packagePrefix ++ rest)).place workingDirectory) path := by
  have hplain := (hrest.relocated hrelative hbelow).1
  calc (r.path (r.packagePrefix ++ relocated rest path)).place workingDirectory
      = (Path.ofString (relocated rest path)).place (r.vendorBase.place workingDirectory) := by
        rw [path_package, place_join hplain.anchor_eq]
    _ = (Path.ofString path).place
          ((directory rest).place (r.vendorBase.place workingDirectory)) := by
        rw [relocated_eq_unitName hrelative]
        exact place_beside _ rest hrelative
    _ = hop ((r.path (r.packagePrefix ++ rest)).place workingDirectory) path := by
        rw [hrest.place_directory hne, hop, path_package, place_join hrest.anchor_eq]

/-- A chain of imports leads to the same place by the names of its units and on disk. -/
theorem place_chain (hpre : IsPackagePrefix r.packagePrefix) (hrest : IsPlain rest) (hne : rest ≠ "")
    (h : ChainBelow rest hops) (workingDirectory : Place) :
    (r.path (hops.foldl unitName (r.packagePrefix ++ rest))).place workingDirectory =
      hops.foldl hop ((r.path (r.packagePrefix ++ rest)).place workingDirectory) := by
  induction h with
  | nil => rfl
  | cons hrelative hbelow _ ih =>
    obtain ⟨hplain, hfilled⟩ := hrest.relocated hrelative hbelow
    rw [List.foldl_cons, List.foldl_cons, unitName_package hpre hrest hrelative hbelow,
      ih hplain hfilled, place_relocated hrest hne hrelative hbelow]

/-- Naming an import inside a vendored file and then mapping the name to a file leads to where on
disk the import leads from that file. -/
theorem vendored_imports_read_beside (r : Resolver) (hpre : IsPackagePrefix r.packagePrefix)
    {rest : String} (hrest : IsPlain rest) : r.ReadsVendored rest where
  path_eq := by
    intro path hrelative hbelow
    rw [unitName_package hpre hrest hrelative hbelow, path_package]
  place_eq := by
    intro hne path hrelative hbelow workingDirectory
    rw [unitName_package hpre hrest hrelative hbelow]
    exact place_relocated hrest hne hrelative hbelow workingDirectory
  chain_path := by
    intro hops hchain
    rw [hchain.units hpre hrest, path_package]
  chain_place := fun hne hops hchain => place_chain hpre hrest hne hchain
  chain_text := by
    intro hne hops hchain tree text htext
    obtain ⟨place, bytes, hlocate, hfile, hbytes⟩ := Tree.readText_eq_ok.mp (reading_eq_text.mp htext)
    refine ⟨bytes, hbytes, ?_⟩
    rw [← place_chain hpre hrest hne hchain, ← Tree.locate_eq hlocate]
    exact hfile

/-- Two imports in a row, the first of them two directories up, are read below the directory of the
packages. -/
theorem vendored_imports_read_beside_chained :
    IsPackagePrefix (ofBase standardBase).packagePrefix ∧ IsPlain "token/ERC20/ERC20.sol" ∧
    (ofBase standardBase).ReadsVendored "token/ERC20/ERC20.sol" ∧
    ChainBelow "token/ERC20/ERC20.sol" ["../../utils/Context.sol", ".//x/.././math/Math.sol"] ∧
    (ofBase standardBase).path (["../../utils/Context.sol", ".//x/.././math/Math.sol"].foldl unitName
        "@openzeppelin/token/ERC20/ERC20.sol") =
      ⟨.relative, ["node_modules", "@openzeppelin", "utils", "math", "Math.sol"]⟩ := by
  have hpre : IsPackagePrefix (ofBase standardBase).packagePrefix :=
    @IsPackagePrefix.names ["@openzeppelin"] (by decide) (by decide)
  have hrest : IsPlain "token/ERC20/ERC20.sol" :=
    @IsPlain.names ["token", "ERC20", "ERC20.sol"] (by decide)
  have hchain : ChainBelow "token/ERC20/ERC20.sol"
      ["../../utils/Context.sol", ".//x/.././math/Math.sol"] :=
    .cons (by decide +kernel) (by decide +kernel)
      (.cons (by decide +kernel) (by decide +kernel) (.nil _))
  refine ⟨hpre, hrest, ?_, hchain, by decide +kernel⟩
  exact vendored_imports_read_beside (ofBase standardBase) hpre hrest

/-- An import that leads above the directory of the packages is read from the working directory. -/
example : (ofBase standardBase).path (unitName "@openzeppelin/ERC20.sol" "../Token.sol") =
    ⟨.relative, ["Token.sol"]⟩ := by
  decide +kernel

end Resolver

end AuditHours.Import
