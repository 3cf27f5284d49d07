import AuditHours.Proofs.Estimate.Staging
import AuditHours.Proofs.Files.Writing
import AuditHours.Proofs.Source.LineEnds

/-!
Contracts in files and in memory. What is read from a file is its text without the carriage returns
at the ends of lines, and nothing that an estimate takes from the text depends on these. So the
estimate of a file and that of its text differ in their compilation at most, and with the same
answer of the compiler they are the same.
-/
namespace AuditHours.Estimate

open Compiler Number Run Source Text Weights

def Estimator.artifact? (e : Estimator) (world : World) : Option Inventory :=
  world.toolchain.result.output?.bind fun output =>
    (inventoryOf output e.bridge.unitName).toOption

/-- An estimate rates the functions of contract units by the signals of a source. -/
structure Rates (estimate : Result) (source : String) (table : Table) (countImports : Bool)
    (mode : Mode) (inventory : Inventory) (counts : List Nat) : Prop where
  counts_eq : inventory.mapM ContractUnit.functionCount = .ok counts
  constraint_eq : constraint? source = some estimate.constraint
  breakdown_eq : estimate.breakdown =
    score table.weights (signals source) counts countImports mode
  lineCount_eq : estimate.lineCount = (signals source).lineCount
  units_eq : estimate.units = inventory.names

section

variable {e : Estimator} {options : Options} {table : Table} {source constraint path : String}
  {mode : Mode} {build : Version.Build} {inventory : Inventory} {config : Option String}
  {world after : World} {estimate : Result}

/-- The estimate of compiled contract units rates them. -/
theorem rates_of_estimateCompiled (hconstraint : constraint? source = some constraint)
    (h : (Estimator.estimateCompiled options source constraint table mode build
      inventory).inWorld world = (.ok estimate, after)) :
    ∃ counts, Rates estimate source table options.countImports mode inventory counts := by
  obtain ⟨counts, counted, hcounts, h⟩ := returned_of_bind h
  obtain ⟨breakdown, rated, hrate, h⟩ := returned_of_bind h
  obtain ⟨_, _, _, h⟩ := returned_of_bind h
  cases hrate
  cases h
  refine ⟨counts, ?_, hconstraint, rfl, rfl, rfl⟩
  rw [functionCounts, inWorld_ofResult] at hcounts
  exact mapError_eq_ok.mp (Prod.mk.inj hcounts).1

/-- The estimate of a source rates what the compiler answers. -/
theorem rates_of_estimateSource
    (h : (e.estimateSource source table options).inWorld world = (.ok estimate, after)) :
    ∃ mode inventory counts, e.chosenMode options.mode = .ok mode ∧
      e.artifact? world = some inventory ∧
      Rates estimate source table options.countImports mode inventory counts := by
  rw [Estimator.estimateSource_eq] at h
  obtain ⟨mode, chosen, hmode, hchosen⟩ := returned_of_bind h
  obtain ⟨constraint, declared, hdeclare, hdeclared⟩ := returned_of_bind hchosen
  obtain ⟨build, resolved, hresolve, hrest⟩ := returned_of_bind hdeclared
  obtain ⟨inventory, compiled, hcompile, hcompiled⟩ := returned_of_bind hrest
  rw [inWorld_ofResult, Prod.mk.injEq] at hmode
  rw [inWorld_declaredConstraint, Prod.mk.injEq] at hdeclare
  obtain ⟨hmode, rfl⟩ := hmode
  obtain ⟨hfound, rfl⟩ := hdeclare
  have hconstraint : constraint? source = some constraint := by
    cases hany : constraint? source <;> simp_all
  obtain ⟨network, cache, records, hresolved⟩ := e.resolver.inWorld_resolve constraint world
  obtain rfl : _ = resolved := (Prod.mk.inj (hresolved.symm.trans hresolve)).2
  obtain ⟨output, houtput, hinventory⟩ :=
    (e.bridge.goesThrough_compile source build options.runs _).returned inventory
      (congrArg Prod.fst hcompile)
  obtain ⟨counts, hrates⟩ := rates_of_estimateCompiled hconstraint hcompiled
  refine ⟨mode, inventory, counts, mapError_eq_ok.mp hmode, ?_, hrates⟩
  simp only [Estimator.artifact?]
  rw [show world.toolchain.result.output? = some output from houtput, Option.bind_some, hinventory]
  rfl

/-- The estimate of a file rates what the compiler answers by the signals of the text that is read.
-/
theorem rates_of_estimateFile (htext : world.tree.readText (.ofString path) = .ok source)
    (htable : tableIn world.tree config = .ok table)
    (h : (e.estimateFile path config options).inWorld world = (.ok estimate, after)) :
    ∃ mode inventory counts, e.chosenMode options.mode = .ok mode ∧
      e.artifact? world = some inventory ∧
      Rates estimate source table options.countImports mode inventory counts := by
  rw [Estimator.estimateFile, inWorld_bind_ok (inWorld_log _ _ _ _)] at h
  generalize world.records ++ _ = logged at h
  have hread := @inWorld_readContract path source { world with records := logged } htext
  rw [inWorld_bind_ok hread] at h
  obtain ⟨records, htabled⟩ := inWorld_tableFor config { world with
    records := logged
    actions := world.actions ++ [.readContract (.ofString path)] }
  rw [htable] at htabled
  rw [inWorld_bind_ok htabled] at h
  obtain ⟨inner, _, hinner, hnamed⟩ := returned_of_bind h
  cases hnamed
  obtain ⟨mode, inventory, counts, hmode, hartifact, hrates⟩ := rates_of_estimateSource hinner
  exact ⟨mode, inventory, counts, hmode, hartifact, hrates.counts_eq, hrates.constraint_eq,
    hrates.breakdown_eq, hrates.lineCount_eq, hrates.units_eq⟩

end

/-- Nothing that an estimate takes from two sources tells them apart. -/
structure ScannedAlike (source text : String) : Prop where
  declared : declaredConstraint source = declaredConstraint text
  lineCount : (signals source).lineCount = (signals text).lineCount
  externalCalls : (signals source).externalCalls = (signals text).externalCalls
  imports : (signals source).imports = (signals text).imports
  hasAssembly : (signals source).hasAssembly = (signals text).hasAssembly
  isUpgradeable : (signals source).isUpgradeable = (signals text).isUpgradeable
  compiled : ∀ (options : Options) (constraint : String) (table : Table) (mode : Mode)
    (build : Version.Build) (inventory : Inventory),
    Estimator.estimateCompiled options source constraint table mode build inventory =
      Estimator.estimateCompiled options text constraint table mode build inventory

/-- What an estimate says, up to the build and the name of the file. -/
structure SaysAlike (fromFile fromText : Result) : Prop where
  breakdown : fromFile.breakdown = fromText.breakdown
  constraint : fromFile.constraint = fromText.constraint
  lineCount : fromFile.lineCount = fromText.lineCount
  units : fromFile.units = fromText.units

theorem scannedAlike_of_signals {source text : String} (hsignals : signals source = signals text)
    (hconstraint : constraint? source = constraint? text) : ScannedAlike source text where
  declared := by rw [declaredConstraint, hconstraint, ← declaredConstraint]
  lineCount := congrArg Signals.lineCount hsignals
  externalCalls := congrArg Signals.externalCalls hsignals
  imports := congrArg Signals.imports hsignals
  hasAssembly := congrArg Signals.hasAssembly hsignals
  isUpgradeable := congrArg Signals.isUpgradeable hsignals
  compiled := by
    intro options constraint table mode build inventory
    rw [Estimator.estimateCompiled, hsignals, ← Estimator.estimateCompiled]

/-- What a file with the bytes of a text is estimated to be, beside the text itself. -/
structure FileAgrees (path text : String) (world : World) (source : String) : Prop where
  read : (readContract path).inWorld world =
    (.ok source, { world with actions := world.actions ++ [.readContract (.ofString path)] })
  scanned : ScannedAlike source text
  /-- With the same weights, modes and contract units, however they come about, the estimates of the
  file and of the text say the same. -/
  estimated : ∀ {e e' : Estimator} {options options' : Options} {config : Option String}
    {table : Table} {memory after after' : World} {fromFile fromText : Result},
    tableIn world.tree config = .ok table →
    e.chosenMode options.mode = e'.chosenMode options'.mode →
    options.countImports = options'.countImports →
    e.artifact? world = e'.artifact? memory →
    (e.estimateFile path config options).inWorld world = (.ok fromFile, after) →
    (e'.estimateSource text table options').inWorld memory = (.ok fromText, after') →
    SaysAlike fromFile fromText

/-- A contract in a file whose lines end by line feeds, with or without carriage returns in front,
is estimated like its text. -/
theorem file_input_agrees {path text : String} {world : World}
    (hfile : world.tree.read (.ofString path) = .ok (encode text))
    (hreturns : ReturnsBeforeFeeds text.toList) : ∃ source, FileAgrees path text world source := by
  have htext : world.tree.readText (.ofString path) =
      .ok (String.ofList (unifyLineBreaks text.toList)) := by
    simp only [Files.Tree.readText, hfile, Files.textOfBytes_encode_unified]
    rfl
  have hsignals : signals (String.ofList (unifyLineBreaks text.toList)) = signals text := by
    rw [signals, String.toList_ofList, signals_unifyLineBreaks hreturns]
    rfl
  have hconstraint : constraint? (String.ofList (unifyLineBreaks text.toList)) =
      constraint? text := by
    rw [constraint?_unifyLineBreaks hreturns, String.ofList_toList]
  refine ⟨_, inWorld_readContract htext, scannedAlike_of_signals hsignals hconstraint, ?_⟩
  intro e e' options options' config table memory after after' fromFile fromText htable hmode hcount
    hartifact hfileRun htextRun
  obtain ⟨mode, inventory, counts, hchosen, hfound, hrates⟩ :=
    rates_of_estimateFile htext htable hfileRun
  obtain ⟨mode', inventory', counts', hchosen', hfound', hrates'⟩ :=
    rates_of_estimateSource htextRun
  obtain rfl : mode = mode' := Except.ok.inj (hchosen.symm.trans (hmode.trans hchosen'))
  obtain rfl : inventory = inventory' := Option.some.inj (hfound.symm.trans (hartifact.trans hfound'))
  obtain rfl : counts = counts' := Except.ok.inj (hrates.counts_eq.symm.trans hrates'.counts_eq)
  have hdeclared := hrates.constraint_eq
  rw [hconstraint] at hdeclared
  refine ⟨?_, Option.some.inj (hdeclared.symm.trans hrates'.constraint_eq), ?_, ?_⟩
  · rw [hrates.breakdown_eq, hrates'.breakdown_eq, hsignals, hcount]
  · rw [hrates.lineCount_eq, hrates'.lineCount_eq, hsignals]
  · rw [hrates.units_eq, hrates'.units_eq]

def returnsText : String :=
  "pragma solidity ^0.8.0;\r\ncontract Token \x7b bytes32 x = \"y.call(\";\r\n\x7d\r\n"

def returnsWorld : World :=
  knownWorld
    { workingDirectory := ["work"]
      entries := [(["work"], .directory), (["work", "Token.sol"], .file (encode returnsText))] }
    "^0.8.0"
    (.output (.obj [("contracts", .obj [("contract.sol", .obj [("Token",
      .obj [("abi", .arr [.obj [("type", .str "function")]])])])])]))

/-- The contract holds carriage returns, and the estimates of its file and of its text say the same.
-/
theorem file_input_agrees_with_returns :
    returnsWorld.tree.read (.ofString "Token.sol") = .ok (encode returnsText) ∧
    ReturnsBeforeFeeds returnsText.toList ∧ '\r' ∈ returnsText.toList ∧
    (∃ source, FileAgrees "Token.sol" returnsText returnsWorld source) ∧
    ∃ fromFile fromText after after',
      (standardEstimator.estimateFile "Token.sol" none ⟨.int 0, false, .null⟩).inWorld returnsWorld =
        (.ok fromFile, after) ∧
      (standardEstimator.estimateSource returnsText .standard ⟨.int 0, false, .null⟩).inWorld
        returnsWorld = (.ok fromText, after') ∧
      SaysAlike fromFile fromText := by
  have hfile : returnsWorld.tree.read (.ofString "Token.sol") = .ok (encode returnsText) := by
    decide +kernel
  have hreturns : ReturnsBeforeFeeds returnsText.toList := by decide +kernel
  obtain ⟨source, hagrees⟩ := file_input_agrees hfile hreturns
  obtain ⟨fromFile, after, hfileRun⟩ := exists_of_run_isOk (by decide +kernel :
    ((standardEstimator.estimateFile "Token.sol" none ⟨.int 0, false, .null⟩).inWorld
      returnsWorld).1.isOk = true)
  obtain ⟨fromText, after', htextRun⟩ := exists_of_run_isOk (by decide +kernel :
    ((standardEstimator.estimateSource returnsText .standard ⟨.int 0, false, .null⟩).inWorld
      returnsWorld).1.isOk = true)
  refine ⟨hfile, hreturns, by decide +kernel, ⟨source, hagrees⟩, fromFile, fromText, after, after',
    hfileRun, htextRun, ?_⟩
  exact hagrees.estimated rfl rfl rfl rfl hfileRun htextRun

end AuditHours.Estimate
