import AuditHours.Proofs.Estimate.Asking
import AuditHours.Proofs.Import.RelativePath

/-!
The imports of an estimated contract. The contract is compiled under a fixed name without a
directory, so its relative imports are resolved against the working directory and not against the
directory of its file. They name the same files exactly when the contract stands in the working
directory, imports of the fixed name and of packages apart.
-/
namespace AuditHours.Estimate

open Files Import

open Compiler (Bridge)

def importedUnit (imported : String) : String := unitName Bridge.standard.unitName imported

/-- Every run of an estimate with the standard settings that gets as far as the imports asks for the
file that an import of the contract names beside the contract, unless this is the contract itself or
the run is ended by a name with the character zero. -/
def ReadsBeside (workingDirectory : Place) (path imported : String) : Prop :=
  ∀ (e : Estimator) (config : Option String) (options : Options) (world after : World)
    (result : Except Failure Result) (source : String),
    e.bridge = .standard → world.tree.workingDirectory = workingDirectory → world.actions = [] →
    world.tree.readText (.ofString path) = .ok source → imported ∈ Source.findImports source →
    (e.estimateFile path config options).inWorld world = (result, after) →
    (∃ action ∈ after.actions, reachesImports action = true) →
    result = .error (.file .zeroCharacter) ∨
      (beside path imported).place workingDirectory =
        (Path.ofString path).place workingDirectory ∨
      ∃ asked, .readImport asked ∈ after.actions ∧
        asked.place workingDirectory = (beside path imported).place workingDirectory

/-- An import whose unit is neither the contract's own nor one of a package. -/
structure OwnName (imported : String) : Prop where
  other : importedUnit imported ≠ Bridge.standard.unitName
  unpackaged : Bridge.standard.resolver.packageRest? (importedUnit imported) = none

/-- Under the fixed name of contracts an import leads where it leads from the working directory. -/
theorem place_importedUnit (workingDirectory : Place) {imported : String}
    (hrelative : isRelative imported = true) :
    (Path.ofString (importedUnit imported)).place workingDirectory =
      (Path.ofString imported).place workingDirectory := by
  have hplace := place_beside workingDirectory Bridge.standard.unitName hrelative
  rwa [place_directory_of_no_slash workingDirectory (by decide)] at hplace

/-- The unit of an import that keeps its name is read where the unit leads. -/
theorem path_of_ownName {imported : String} (hown : OwnName imported) :
    Bridge.standard.resolver.path (importedUnit imported) =
      Path.ofString (importedUnit imported) := by
  unfold Resolver.path
  rw [hown.unpackaged]
  rfl

/-- A unit of a package is read one step further down than it leads. -/
theorem length_place_of_packaged (workingDirectory : Place) {imported : String}
    (hrelative : isRelative imported = true)
    (hpackaged : Bridge.standard.resolver.packageRest? (importedUnit imported) ≠ none) :
    ((Bridge.standard.resolver.path (importedUnit imported)).place workingDirectory).length =
        ((Path.ofString imported).place workingDirectory).length + 1 ∧
      workingDirectory.length + 1 <
        ((Bridge.standard.resolver.path (importedUnit imported)).place workingDirectory).length := by
  obtain ⟨name, hname⟩ := Option.ne_none_iff_exists'.mp hpackaged
  obtain ⟨rest, hrest, rfl⟩ := Option.map_eq_some_iff.mp hname
  have hprefix : Bridge.standard.resolver.packagePrefix.toList =
      "@openzeppelin".toList ++ ['/'] := by decide
  have hunit : (importedUnit imported).toList = "@openzeppelin".toList ++ '/' :: rest := by
    rw [Source.dropPrefix?_eq hrest, hprefix]
    simp
  obtain ⟨hnames, hrelativeUnit, hrelativeRest, hordinary⟩ := unitName_packaged hrelative hunit
  have hlead : (Path.ofString imported).place workingDirectory =
      workingDirectory ++ "@openzeppelin" :: Path.namesIn rest := by
    rw [← place_importedUnit workingDirectory hrelative]
    change (beside _ imported).place workingDirectory = _
    rw [Path.place, hnames, hrelativeUnit]
    refine foldl_enter_of_ordinary ?_ workingDirectory
    intro other hother
    rcases List.mem_cons.mp hother with rfl | hrestName
    · decide
    · exact hordinary other hrestName
  have hpath : Bridge.standard.resolver.path (importedUnit imported) =
      ⟨.relative, "node_modules" :: "@openzeppelin" :: Path.namesIn rest⟩ := by
    have hbase : Bridge.standard.resolver.vendorBase =
        ⟨.relative, ["node_modules", "@openzeppelin"]⟩ := by decide
    unfold Resolver.path
    rw [hname]
    simp only []
    rw [hbase, Path.join, if_neg (by simp [hrelativeRest]), Path.ofString_eq, String.toList_ofList]
    rfl
  have hread : (Bridge.standard.resolver.path (importedUnit imported)).place workingDirectory =
      workingDirectory ++ "node_modules" :: "@openzeppelin" :: Path.namesIn rest := by
    rw [hpath, Path.place]
    refine foldl_enter_of_ordinary ?_ workingDirectory
    intro other hother
    rcases List.mem_cons.mp hother with rfl | hother
    · decide
    · rcases List.mem_cons.mp hother with rfl | hrestName
      · decide
      · exact hordinary other hrestName
  rw [hread, hlead]
  simp only [List.length_append, List.length_cons]
  omega

/-- From a contract in the working directory the imports that keep their names are read beside it.
-/
theorem readsBeside_of_directory {workingDirectory : Place} {path imported : String}
    (hdirectory : (directory path).place workingDirectory = workingDirectory)
    (hrelative : isRelative imported = true) (hown : OwnName imported) :
    ReadsBeside workingDirectory path imported := by
  intro e config options world after result source hbridge hworking hnone hsource himported hrun
    hreached
  have hasks := asksFor_estimateFile e config options hsource world result after rfl
    (by simp [hnone]) hrun hreached
  have hmem : Bridge.standard.resolver.path (importedUnit imported) ∈
      importPaths e.bridge source := by
    rw [hbridge]
    have hunit : importedUnit imported ∈ Walk.imported Bridge.standard.unitName source :=
      List.mem_map_of_mem himported
    exact List.mem_map_of_mem (List.mem_filter.mpr ⟨hunit, by simpa using hown.other⟩)
  refine hasks.imp_right fun hasked => Or.inr ⟨_, hasked _ hmem, ?_⟩
  rw [path_of_ownName hown, place_importedUnit workingDirectory hrelative,
    place_beside workingDirectory path hrelative, hdirectory]

def standardEstimator : Estimator :=
  ⟨⟨Settings.standard.catalogUrl, Http.Client.standard⟩, .standard, Settings.standard.mode⟩

/-- Surroundings in which the version of a contract is known and its compiler is installed. -/
def knownWorld (tree : Tree) (constraint : String) (result : Compiler.RunResult) : World where
  tree
  network := ⟨[]⟩
  toolchain := ⟨["0.8.0"], none, none, result⟩
  cache := ⟨[(constraint, some ⟨"v0.8.0+commit.c7dfd78e"⟩)]⟩
  actions := []
  records := []

/-- With a known version an estimate asks for the units of its walk and then fails as what it
submits to the compiler fails. -/
theorem estimateFile_known {tree : Tree} {path source constraint : String} {w : Walk}
    {result : Compiler.RunResult} {failure : Failure} {P : World → Prop}
    (hsource : tree.readText (.ofString path) = .ok source)
    (hconstraint : Source.constraint? source = some constraint)
    (hw : Bridge.standard.resolver.walk tree Bridge.standard.unitName source = w)
    (htaken : ∀ name ∈ w.asked, Bridge.standard.resolver.reading tree name ≠ .refused)
    (hsubmit : ∀ gathered : World, gathered.toolchain.result = result → ∃ after,
      (Bridge.standard.submit ⟨"v0.8.0+commit.c7dfd78e"⟩ (.int 0) ⟨w.sources, w.errors⟩).inWorld
        gathered = (.error failure, after) ∧ P after) :
    ∃ after, (standardEstimator.estimateFile path none ⟨.int 0, false, .null⟩).inWorld
        (knownWorld tree constraint result) = (.error failure, after) ∧ P after ∧
      ∀ asked, .readImport asked ∈ after.actions ↔
        ∃ name ∈ w.asked, Bridge.standard.resolver.path name = asked := by
  have hknown : (knownWorld tree constraint result).cache.find? constraint =
      some (some ⟨"v0.8.0+commit.c7dfd78e"⟩) := by
    simp [knownWorld, Version.Cache.find?, Json.field?]
  have hlisted : Version.Build.release ⟨"v0.8.0+commit.c7dfd78e"⟩ ∈ ["0.8.0"] := by decide
  have hgathered : ∀ gathered : World,
      gathered.toolchain = (knownWorld tree constraint result).toolchain → ∃ after,
      (Bridge.standard.submit ⟨"v0.8.0+commit.c7dfd78e"⟩ (.int 0) ⟨w.sources, w.errors⟩).inWorld
        gathered = (.error failure, after) ∧ P after := by
    intro gathered htoolchain
    exact hsubmit gathered (by rw [htoolchain]; rfl)
  exact @estimateFile_of_submit standardEstimator ⟨.int 0, false, .null⟩
    (knownWorld tree constraint result) path source constraint _ _ w failure P rfl rfl hsource
    hconstraint hknown rfl hlisted rfl hw htaken hgathered

/-- A run that the compiler interrupts has got as far as the imports and asked for the units of its
walk. -/
theorem estimateFile_interrupted {tree : Tree} {path source constraint : String} {w : Walk}
    (hsource : tree.readText (.ofString path) = .ok source)
    (hconstraint : Source.constraint? source = some constraint)
    (hw : Bridge.standard.resolver.walk tree Bridge.standard.unitName source = w)
    (htaken : ∀ name ∈ w.asked, Bridge.standard.resolver.reading tree name ≠ .refused) :
    ∃ after, (standardEstimator.estimateFile path none ⟨.int 0, false, .null⟩).inWorld
        (knownWorld tree constraint .interrupted) = (.error .interrupted, after) ∧
      (∃ action ∈ after.actions, reachesImports action = true) ∧
      ∀ asked, .readImport asked ∈ after.actions ↔
        ∃ name ∈ w.asked, Bridge.standard.resolver.path name = asked := by
  refine estimateFile_known hsource hconstraint hw htaken fun gathered hresult => ?_
  obtain ⟨after, job, hsubmit, hcompiled⟩ := Bridge.standard.inWorld_submit_interrupted
    ⟨"v0.8.0+commit.c7dfd78e"⟩ ⟨w.sources, w.errors⟩ (rfl : Compiler.isRunCount (.int 0) = true)
    hresult
  exact ⟨after, hsubmit, _, hcompiled, rfl⟩

/-- What a run that is interrupted has asked for includes the files beside its contract that its
imports name. -/
theorem asked_of_readsBeside {tree : Tree} {path source constraint imported : String} {w : Walk}
    (hsource : tree.readText (.ofString path) = .ok source)
    (hconstraint : Source.constraint? source = some constraint)
    (himported : imported ∈ Source.findImports source)
    (hw : Bridge.standard.resolver.walk tree Bridge.standard.unitName source = w)
    (htaken : ∀ name ∈ w.asked, Bridge.standard.resolver.reading tree name ≠ .refused)
    (hreads : ReadsBeside tree.workingDirectory path imported) :
    (beside path imported).place tree.workingDirectory =
        (Path.ofString path).place tree.workingDirectory ∨
      ∃ name ∈ w.asked, (Bridge.standard.resolver.path name).place tree.workingDirectory =
        (beside path imported).place tree.workingDirectory := by
  obtain ⟨after, hrun, hreached, hasked⟩ :=
    estimateFile_interrupted hsource hconstraint hw htaken
  have hbeside := hreads standardEstimator none ⟨.int 0, false, .null⟩
    (knownWorld tree constraint .interrupted) after _ source rfl rfl rfl hsource himported hrun
    hreached
  rcases hbeside with hzero | hself | ⟨asked, hmem, hplace⟩
  · simp at hzero
  · exact Or.inl hself
  · obtain ⟨name, hname, rfl⟩ := (hasked asked).mp hmem
    exact Or.inr ⟨name, hname, hplace⟩

/-- A contract with a single import, of another unit than its own, whose file it alone could be: if
the import is read beside the contract, then the path of its unit leads there. -/
theorem place_of_readsBeside {tree : Tree} {path source constraint imported : String}
    (hsource : tree.readText (.ofString path) = .ok source)
    (hconstraint : Source.constraint? source = some constraint)
    (hfound : Source.findImports source = [imported])
    (hother : importedUnit imported ≠ Bridge.standard.unitName)
    (htaken : '\x00' ∉ (Bridge.standard.resolver.path (importedUnit imported)).text.toList)
    (hapart : (Bridge.standard.resolver.path (importedUnit imported)).place tree.workingDirectory ≠
      (Path.ofString path).place tree.workingDirectory)
    (hreads : ReadsBeside tree.workingDirectory path imported) :
    (beside path imported).place tree.workingDirectory =
        (Path.ofString path).place tree.workingDirectory ∨
      (Bridge.standard.resolver.path (importedUnit imported)).place tree.workingDirectory =
        (beside path imported).place tree.workingDirectory := by
  obtain ⟨place, bytes, _, _, hbytes⟩ := Tree.readText_eq_ok.mp hsource
  -- Nothing but the contract is left in the tree, so its import cannot be read.
  have hsource := Tree.readText_withOnly hsource hbytes
  have hmissing : ∀ text, (tree.withOnly ((Path.ofString path).place tree.workingDirectory)
      bytes).readText (Bridge.standard.resolver.path (importedUnit imported)) ≠ .ok text :=
    fun text hread => hapart (Tree.place_of_readText_withOnly hread)
  have hunreadable := Resolver.reading_of_missing hmissing htaken
  have himported : Walk.imported Bridge.standard.unitName source = [importedUnit imported] := by
    rw [Walk.imported, hfound]
    rfl
  have hunread : ∀ name ∈ [importedUnit imported], Bridge.standard.resolver.reading
      (tree.withOnly ((Path.ofString path).place tree.workingDirectory) bytes) name ≠ .refused := by
    intro name hname
    obtain rfl := List.mem_singleton.mp hname
    rw [hunreadable]
    simp
  have hasked := asked_of_readsBeside hsource hconstraint (hfound ▸ List.mem_singleton.mpr rfl)
    (Walk.run_single himported hother hunreadable _) hunread hreads
  refine hasked.imp_right ?_
  rintro ⟨name, hname, hplace⟩
  obtain rfl := List.mem_singleton.mp hname
  exact hplace

def singleImport (name : String) : String :=
  "pragma solidity 0.8.0;\nimport \"./" ++ name ++ "\";"

/-- What is read off a contract with a single import, and where its import leads. -/
structure SingleImport (name : String) : Prop where
  relative : isRelative ("./" ++ name) = true
  found : Source.findImports (singleImport name) = ["./" ++ name]
  declared : Source.constraint? (singleImport name) = some "0.8.0"
  bytes : textOfBytes (Text.encode (singleImport name)) = .ok (singleImport name)
  other : importedUnit ("./" ++ name) ≠ Bridge.standard.unitName
  unpackaged : Bridge.standard.resolver.packageRest? (importedUnit ("./" ++ name)) = none
  taken : '\x00' ∉ (Bridge.standard.resolver.path (importedUnit ("./" ++ name))).text.toList
  place : ∀ workingDirectory, (Path.ofString ("./" ++ name)).place workingDirectory =
    workingDirectory ++ [name]

theorem singleImport_of_mem {name : String} (h : name ∈ ["a", "b"]) : SingleImport name := by
  simp only [List.mem_cons, List.not_mem_nil, or_false] at h
  rcases h with rfl | rfl
  · refine ⟨?_, ?_, ?_, ?_, ?_, ?_, ?_, fun _ => rfl⟩ <;> decide +kernel
  · refine ⟨?_, ?_, ?_, ?_, ?_, ?_, ?_, fun _ => rfl⟩ <;> decide +kernel

/-- If the imports that keep their names are read beside a contract, whatever they are, then the
contract stands in the working directory. -/
theorem directory_of_readsBeside {tree : Tree} {path text : String}
    (htext : tree.readText (.ofString path) = .ok text)
    (hreads : ∀ imported, isRelative imported = true → OwnName imported →
      ReadsBeside tree.workingDirectory path imported) :
    (directory path).place tree.workingDirectory = tree.workingDirectory := by
  -- One of two names is not the last one of the contract's own place.
  obtain ⟨name, hname, hlast⟩ : ∃ name ∈ ["a", "b"],
      ((Path.ofString path).place tree.workingDirectory).getLast? ≠ some name := by
    by_cases ha : ((Path.ofString path).place tree.workingDirectory).getLast? = some "a"
    · exact ⟨"b", by simp, by simp [ha]⟩
    · exact ⟨"a", by simp, ha⟩
  have hsingle := singleImport_of_mem hname
  have hown : OwnName ("./" ++ name) := ⟨hsingle.other, hsingle.unpackaged⟩
  obtain ⟨single, hworking, hsource⟩ : ∃ single : Tree,
      single.workingDirectory = tree.workingDirectory ∧
        single.readText (.ofString path) = .ok (singleImport name) :=
    ⟨tree.withOnly _ _, rfl, Tree.readText_withOnly htext hsingle.bytes⟩
  rw [← hworking] at hlast hreads ⊢
  have hread : (Bridge.standard.resolver.path (importedUnit ("./" ++ name))).place
      single.workingDirectory = single.workingDirectory ++ [name] := by
    rw [path_of_ownName hown, place_importedUnit _ hsingle.relative, hsingle.place]
  have hbeside : (beside path ("./" ++ name)).place single.workingDirectory =
      (directory path).place single.workingDirectory ++ [name] := by
    rw [place_beside _ path hsingle.relative, hsingle.place]
  have hapart : ∀ place : Place,
      place ++ [name] ≠ (Path.ofString path).place single.workingDirectory := by
    intro place hplace
    rw [← hplace] at hlast
    simp at hlast
  have hasked := place_of_readsBeside hsource hsingle.declared hsingle.found hsingle.other
    hsingle.taken (by rw [hread]; exact hapart _) (hreads _ hsingle.relative hown)
  rw [hread, hbeside] at hasked
  rcases hasked with hself | hplace
  · exact absurd hself (hapart _)
  · exact (List.append_cancel_right hplace).symm

/-- In the working directory only the contract itself and imports that keep their names are read
beside a contract, as far as a contract with the import alone can tell. -/
theorem ownName_of_readsBeside {tree : Tree} {path source constraint imported : String}
    (hsource : tree.readText (.ofString path) = .ok source)
    (hconstraint : Source.constraint? source = some constraint)
    (hfound : Source.findImports source = [imported])
    (hrelative : isRelative imported = true)
    (htaken : '\x00' ∉ (Bridge.standard.resolver.path (importedUnit imported)).text.toList)
    (hdirectory : (directory path).place tree.workingDirectory = tree.workingDirectory)
    (hreads : ReadsBeside tree.workingDirectory path imported) :
    (beside path imported).place tree.workingDirectory =
      (Path.ofString path).place tree.workingDirectory ∨ OwnName imported := by
  have hbeside : (beside path imported).place tree.workingDirectory =
      (Path.ofString imported).place tree.workingDirectory := by
    rw [place_beside _ path hrelative, hdirectory]
  by_cases hother : importedUnit imported = Bridge.standard.unitName
  · have himported : Walk.imported Bridge.standard.unitName source =
        [Bridge.standard.unitName] := by
      rw [Walk.imported, hfound, List.map_singleton]
      exact congrArg (fun unit => [unit]) hother
    have hw : Bridge.standard.resolver.walk tree Bridge.standard.unitName source =
        ⟨[(Bridge.standard.unitName, source)], [], [], [], false⟩ := Walk.run_self himported _
    have hmem : imported ∈ Source.findImports source := by
      rw [hfound]
      exact List.mem_singleton.mpr rfl
    rcases asked_of_readsBeside hsource hconstraint hmem hw (by simp) hreads with hself | hasked
    · exact Or.inl hself
    · simp at hasked
  · by_cases hunpackaged : Bridge.standard.resolver.packageRest? (importedUnit imported) = none
    · exact Or.inr ⟨hother, hunpackaged⟩
    · left
      obtain ⟨hdeeper, hdeep⟩ :=
        length_place_of_packaged tree.workingDirectory hrelative hunpackaged
      have hshallow := length_place_le tree.workingDirectory path
      rw [hdirectory] at hshallow
      have hapart : (Bridge.standard.resolver.path (importedUnit imported)).place
          tree.workingDirectory ≠ (Path.ofString path).place tree.workingDirectory := by
        intro hplace
        rw [hplace] at hdeep
        omega
      refine (place_of_readsBeside hsource hconstraint hfound hother htaken hapart
        hreads).resolve_right ?_
      intro hplace
      rw [hplace, hbeside] at hdeeper
      omega

/-- The imports of a contract that keep their names are all read beside it exactly when the contract
stands in the working directory. There an import that a contract has alone is read beside it only if
it keeps its name or leads to the contract itself. -/
theorem imports_read_beside_iff {workingDirectory : Place} {path : String}
    (hreadable : ∃ (tree : Tree) (text : String), tree.workingDirectory = workingDirectory ∧
      tree.readText (.ofString path) = .ok text) :
    ((∀ imported, isRelative imported = true → OwnName imported →
        ReadsBeside workingDirectory path imported) ↔
      (directory path).place workingDirectory = workingDirectory) ∧
    ∀ (tree : Tree) (source constraint imported : String),
      (directory path).place workingDirectory = workingDirectory →
      tree.workingDirectory = workingDirectory →
      tree.readText (.ofString path) = .ok source →
      Source.constraint? source = some constraint → Source.findImports source = [imported] →
      isRelative imported = true →
      '\x00' ∉ (Bridge.standard.resolver.path (importedUnit imported)).text.toList →
      (ReadsBeside workingDirectory path imported ↔
        (beside path imported).place workingDirectory =
          (Path.ofString path).place workingDirectory ∨ OwnName imported) := by
  refine ⟨⟨?_, ?_⟩, ?_⟩
  · intro hreads
    obtain ⟨tree, text, rfl, htext⟩ := hreadable
    exact directory_of_readsBeside htext hreads
  · intro hdirectory imported hrelative hown
    exact readsBeside_of_directory hdirectory hrelative hown
  · rintro tree source constraint imported hdirectory rfl hsource hconstraint hfound hrelative htaken
    constructor
    · exact ownName_of_readsBeside hsource hconstraint hfound hrelative htaken hdirectory
    · rintro (hself | hown)
      · intro e config options world after result text _ _ _ _ _ _ _
        exact Or.inr (Or.inl hself)
      · exact readsBeside_of_directory hdirectory hrelative hown

def clashTree : Tree where
  workingDirectory := ["work"]
  entries := [(["work"], .directory), (["work", "Token.sol"],
    .file (Text.encode "pragma solidity ^0.8.0;\nimport \"./contract.sol\";\n"))]

/-- From the working directory the imports that keep their names are read beside the contract, and
one of the fixed name of contracts is not. -/
theorem imports_read_beside_working_directory :
    (∀ imported, isRelative imported = true → OwnName imported →
      ReadsBeside ["work"] "Token.sol" imported) ∧
    ¬ ReadsBeside ["work"] "Token.sol" "./contract.sol" := by
  have htext : clashTree.readText (.ofString "Token.sol") =
      .ok "pragma solidity ^0.8.0;\nimport \"./contract.sol\";\n" := by
    decide +kernel
  have hdirectory : (directory "Token.sol").place ["work"] = ["work"] := by decide +kernel
  have hconstraint : Source.constraint? "pragma solidity ^0.8.0;\nimport \"./contract.sol\";\n" =
      some "^0.8.0" := by
    decide +kernel
  obtain ⟨hown, hclash⟩ := @imports_read_beside_iff ["work"] "Token.sol" ⟨_, _, rfl, htext⟩
  refine ⟨hown.mpr hdirectory, fun hreads => ?_⟩
  have hcases := (hclash clashTree _ _ "./contract.sol" hdirectory rfl htext hconstraint
    (by decide +kernel) (by decide +kernel) (by decide +kernel)).mp hreads
  rcases hcases with hself | hown
  · exact absurd hself (by decide +kernel)
  · exact hown.other (by decide +kernel)

def tokenSource : String :=
  "pragma solidity ^0.8.0;\nimport \"./Math.sol\";\ncontract Token {}\n"

def contractsTree : Tree where
  workingDirectory := ["work"]
  entries := [(["work"], .directory), (["work", "contracts"], .directory),
    (["work", "contracts", "Token.sol"], .file (Text.encode tokenSource)),
    (["work", "contracts", "Math.sol"],
      .file (Text.encode "pragma solidity ^0.8.0;\nlibrary Math {}\n"))]

/-- The library beside the contract can be read, but the estimate of the contract reports it as
unreadable and asks for no file at its place. -/
theorem library_beside_contract_unread :
    contractsTree.readText (beside "contracts/Token.sol" "./Math.sol") =
      .ok "pragma solidity ^0.8.0;\nlibrary Math {}\n" ∧
    ∃ after, (standardEstimator.estimateFile "contracts/Token.sol" none
        ⟨.int 0, false, .null⟩).inWorld (knownWorld contractsTree "^0.8.0" (.output (.obj []))) =
          (.error (.compileErrors [.ofImport "Math.sol" "Error reading Math.sol"]), after) ∧
      ∀ asked, .readImport asked ∈ after.actions →
        asked.place ["work"] ≠ (beside "contracts/Token.sol" "./Math.sol").place ["work"] := by
  have hsource : contractsTree.readText (.ofString "contracts/Token.sol") = .ok tokenSource := by
    decide +kernel
  have hconstraint : Source.constraint? tokenSource = some "^0.8.0" := by decide +kernel
  have hw : Bridge.standard.resolver.walk contractsTree Bridge.standard.unitName tokenSource =
      ⟨[("contract.sol", tokenSource)], [("Math.sol", "Error reading Math.sol")], [],
        ["Math.sol"], false⟩ := by
    decide +kernel
  refine ⟨by decide +kernel, ?_⟩
  have hsubmit : ∀ gathered : World, gathered.toolchain.result = .output (.obj []) → ∃ after,
      (Bridge.standard.submit ⟨"v0.8.0+commit.c7dfd78e"⟩ (.int 0)
        ⟨[("contract.sol", tokenSource)], [("Math.sol", "Error reading Math.sol")]⟩).inWorld
          gathered =
        (.error (.compileErrors [.ofImport "Math.sol" "Error reading Math.sol"]), after) ∧
        True := by
    intro gathered hresult
    have houtput : gathered.toolchain.result.output? = some (.obj []) := by
      rw [hresult]
      rfl
    have hreported : Compiler.reported (.obj []) = .ok [] := rfl
    have houtcome := Bridge.standard.outcome_silent "Error reading Math.sol"
      (by decide : "Math.sol" ≠ "")
    obtain ⟨after, hsubmit⟩ := Bridge.standard.inWorld_submit ⟨"v0.8.0+commit.c7dfd78e"⟩
      ⟨[("contract.sol", tokenSource)], [("Math.sol", "Error reading Math.sol")]⟩
      (rfl : Compiler.isRunCount (.int 0) = true) houtput hreported
    rw [houtcome] at hsubmit
    exact ⟨after, hsubmit, trivial⟩
  obtain ⟨after, hrun, _, hasked⟩ :=
    estimateFile_known hsource hconstraint hw (by decide +kernel) hsubmit
  refine ⟨after, hrun, fun asked hmem => ?_⟩
  obtain ⟨name, hname, rfl⟩ := (hasked asked).mp hmem
  obtain rfl := List.mem_singleton.mp hname
  decide +kernel

end AuditHours.Estimate
