import AuditHours.Proofs.Compiler.Staging
import AuditHours.Proofs.Estimate.ContractImports
import AuditHours.Proofs.Source.Declarations
import AuditHours.Proofs.Version.Memo
import AuditHours.Proofs.Weights.OverlayFile

/-!
The stages of an estimate. The contract is read, then the overlay if there is one, at most one
request is sent for the catalog, the compilers are listed, a missing release is installed, the
imports are read, and one job is compiled. What stands between these actions are checks. Nothing is
done behind a stage that fails, and an estimate is returned exactly if all stages succeed.
An import that cannot be read is no such failure, unless its path holds the character zero.
-/
namespace AuditHours

open Json Run Compiler

/-! ### What the stages do -/

namespace Version.Resolver

variable (resolver : Resolver) (constraint : String) (world : World)

def resolved : Except Failure Build :=
  match world.cache.find? constraint with
  | some value => ofKnown constraint value
  | none =>
    match resolver.searched world.network.next.1 constraint with
    | .ok value => ofKnown constraint value
    | .error failure => .error failure

def asks : List Http.Request :=
  if world.cache.find? constraint = none then resolver.requests else []

theorem length_asks_le : (resolver.asks constraint world).length ≤ 1 := by
  unfold asks
  split
  · exact Http.length_requests_le
  · simp

theorem inWorld_resolve : ∃ network cache records,
    (resolver.resolve constraint).inWorld world = (resolver.resolved constraint world, { world with
      network, cache, records
      actions := world.actions ++ (resolver.asks constraint world).map .get }) := by
  unfold resolve findOrSearch resolved asks
  rw [inWorld_bind_ok (inWorld_get _)]
  cases hknown : world.cache.find? constraint with
  | some value =>
    refine ⟨world.network, world.cache, world.records ++ [hitRecord constraint], ?_⟩
    simp only [reduceCtorEq, if_false, List.map_nil, List.append_nil]
    exact (inWorld_bind_ok rfl).trans (inWorld_buildOf ..)
  | none =>
    obtain ⟨network, records, hsearch⟩ := resolver.inWorld_search constraint world
    cases hresult : resolver.searched world.network.next.1 constraint with
    | error failure =>
      rw [hresult] at hsearch
      exact ⟨network, world.cache, records, inWorld_bind_error hsearch⟩
    | ok value =>
      rw [hresult] at hsearch
      refine ⟨network, world.cache.store constraint value, records, ?_⟩
      simp only [if_true]
      rw [inWorld_bind_ok hsearch, inWorld_bind_ok (inWorld_modify _ _), inWorld_buildOf]

end Version.Resolver

namespace Estimate

theorem inWorld_readContract_any (path : String) (world : World) :
    ∃ result, (readContract path).inWorld world = (result, { world with
        actions := world.actions ++ [.readContract (.ofString path)] }) ∧
      result.toOption = (world.tree.readText (.ofString path)).toOption := by
  unfold readContract
  rw [inWorld_bind_ok (inWorld_act _ _), inWorld_bind_ok (inWorld_get _)]
  cases world.tree.readText (.ofString path) with
  | ok text => exact ⟨_, rfl, rfl⟩
  | error failure =>
    cases failure with
    | decoding error => exact ⟨_, rfl, rfl⟩
    | file error =>
      cases error with
      | refused fault text | zeroCharacter => exact ⟨_, rfl, rfl⟩

/-- What an estimate says besides its hours. -/
structure Says (estimate : Result) (source constraint : String) (build : Version.Build)
    (inventory : Inventory) : Prop where
  constraint_eq : estimate.constraint = constraint
  build_eq : estimate.build = build.name
  lineCount_eq : estimate.lineCount = source.toList.count '\n' + 1
  units_eq : estimate.units = inventory.map ContractUnit.name

/-! ### The stages in order -/

namespace Estimator

variable (e : Estimator) (path : String) (config : Option String) (options : Options)
  (world : World)

def countStage : Stage :=
  ⟨[], world.toolchain.result.output?.any fun output =>
    (inventoryOf output e.bridge.unitName).toOption.any fun inventory =>
      (inventory.mapM ContractUnit.functionCount).isOk⟩

/-- Behind a declared version the constraint is resolved, the contract is compiled, and the
functions of its units are counted. -/
def declaredStages (source constraint : String) : List Stage :=
  let build := e.resolver.resolved constraint world
  ⟨(e.resolver.asks constraint world).map .get, build.isOk⟩ ::
    build.toOption.toList.flatMap fun build =>
      e.bridge.stages source build options.runs world ++ [e.countStage world]

def sourceStages (source : String) : List Stage :=
  let constraint := Source.constraint? source
  [⟨[], (e.chosenMode options.mode).isOk⟩, ⟨[], constraint.isSome⟩] ++
    constraint.toList.flatMap (e.declaredStages options world source)

def stages : List Stage :=
  let text := (world.tree.readText (.ofString path)).toOption
  [⟨[.readContract (.ofString path)], text.isSome⟩,
    ⟨Weights.overlayReads config, (Weights.tableIn world.tree config).isOk⟩] ++
    text.toList.flatMap (e.sourceStages options world)

def estimateCompiled (source constraint : String) (table : Weights.Table) (mode : Mode)
    (build : Version.Build) (inventory : Inventory) : Run Result := do
  let signals := Source.signals source
  let counts ← functionCounts inventory
  let breakdown ← rate table.weights signals counts options.countImports mode
  let hours := Number.fixedText 2 breakdown.total.toReal
  Run.log .info estimatorLogger s!"Estimated {hours} hours in total"
  return { breakdown, constraint, build := build.name, lineCount := signals.lineCount
           units := inventory.names, contractPath := none }

def estimateDeclared (source constraint : String) (table : Weights.Table) (mode : Mode) :
    Run Result := do
  let build ← e.resolver.resolve constraint
  let inventory ← e.bridge.compile source build options.runs
  estimateCompiled options source constraint table mode build inventory

theorem estimateSource_eq (source : String) (table : Weights.Table) :
    e.estimateSource source table options = (do
      let mode ← Run.ofResult .argument (e.chosenMode options.mode)
      let constraint ← declaredConstraint source
      e.estimateDeclared options source constraint table mode) := rfl

theorem goesThrough_estimateCompiled (source constraint : String) (table : Weights.Table)
    (mode : Mode) (build : Version.Build) (inventory : Inventory) :
    GoesThrough (estimateCompiled options source constraint table mode build inventory) world
      [⟨[], (inventory.mapM ContractUnit.functionCount).isOk⟩]
      fun estimate => Says estimate source constraint build inventory := by
  unfold estimateCompiled functionCounts
  refine GoesThrough.cons (inWorld_ofResult _ _ _) (by simp) ?_ fun counts _ => ?_
  · cases inventory.mapM ContractUnit.functionCount <;> rfl
  · refine GoesThrough.skip rfl rfl (GoesThrough.skip (inWorld_log _ _ _ _) rfl ?_)
    exact GoesThrough.silent (inWorld_pure _ _) rfl ⟨rfl, rfl, rfl, rfl⟩

theorem goesThrough_estimateDeclared (source constraint : String) (table : Weights.Table)
    (mode : Mode) :
    GoesThrough (e.estimateDeclared options source constraint table mode) world
      (e.declaredStages options world source constraint)
      fun estimate => ∃ build output inventory,
        e.resolver.resolved constraint world = .ok build ∧
        world.toolchain.result.output? = some output ∧
        inventoryOf output e.bridge.unitName = .ok inventory ∧
        Says estimate source constraint build inventory := by
  unfold estimateDeclared declaredStages
  obtain ⟨network, cache, records, hresolve⟩ := e.resolver.inWorld_resolve constraint world
  refine GoesThrough.cons hresolve rfl rfl fun build hbuild => ?_
  simp only [hbuild, Except.toOption, Option.toList, List.flatMap_cons, List.flatMap_nil,
    List.append_nil]
  refine (e.bridge.goesThrough_compile source build options.runs _).bind ?_
  rintro inventory compiled - ⟨output, houtput, hinventory⟩
  simp only [countStage, houtput, hinventory, Option.any_some]
  refine (goesThrough_estimateCompiled options compiled source constraint table mode build
    inventory).imp fun estimate hsays => ?_
  exact ⟨build, output, inventory, rfl, rfl, hinventory, hsays⟩

theorem goesThrough_estimateSource (source : String) (table : Weights.Table) :
    GoesThrough (e.estimateSource source table options) world (e.sourceStages options world source)
      fun estimate => ∃ constraint build output inventory,
        Source.constraint? source = some constraint ∧
        e.resolver.resolved constraint world = .ok build ∧
        world.toolchain.result.output? = some output ∧
        inventoryOf output e.bridge.unitName = .ok inventory ∧
        Says estimate source constraint build inventory := by
  rw [estimateSource_eq]
  unfold sourceStages
  refine GoesThrough.cons (inWorld_ofResult _ _ _) (by simp) ?_ fun mode _ => ?_
  · cases e.chosenMode options.mode <;> rfl
  have hdeclare := Source.inWorld_declaredConstraint source world
  refine GoesThrough.cons hdeclare (by simp) ?_ fun constraint hconstraint => ?_
  · cases Source.constraint? source <;> rfl
  cases hdeclared : Source.constraint? source with
  | none => simp [hdeclared] at hconstraint
  | some declared =>
    obtain rfl : declared = constraint := by simpa [hdeclared] using hconstraint
    simp only [Option.toList, List.flatMap_cons, List.flatMap_nil, List.append_nil]
    refine (e.goesThrough_estimateDeclared options world source declared table mode).imp ?_
    rintro estimate ⟨build, output, inventory, hbuild, houtput, hinventory, hsays⟩
    exact ⟨declared, build, output, inventory, rfl, hbuild, houtput, hinventory, hsays⟩

/-- An estimate describes a contract: it says what its text, its declared version, the build that is
resolved for it and the answer of the compiler say. -/
def Describes (estimate : Result) : Prop :=
  ∃ source constraint build output inventory,
    world.tree.readText (.ofString path) = .ok source ∧
    Source.constraint? source = some constraint ∧
    e.resolver.resolved constraint world = .ok build ∧
    world.toolchain.result.output? = some output ∧
    inventoryOf output e.bridge.unitName = .ok inventory ∧
    estimate.contractPath = some path ∧ Says estimate source constraint build inventory

theorem goesThrough_estimateFile :
    GoesThrough (e.estimateFile path config options) world (e.stages path config options world)
      (e.Describes path world) := by
  unfold estimateFile stages
  refine GoesThrough.skip (inWorld_log _ _ _ _) rfl ?_
  generalize world.records ++ _ = logged
  obtain ⟨result, hread, htext⟩ := inWorld_readContract_any path { world with records := logged }
  rw [← htext]
  refine GoesThrough.cons hread rfl ?_ ?_
  · cases result <;> rfl
  rintro source rfl
  have hsource : world.tree.readText (.ofString path) = .ok source :=
    toOption_eq_some.mp htext.symm
  obtain ⟨records, htable⟩ := Weights.inWorld_tableFor config { world with
    records := logged
    actions := world.actions ++ [.readContract (.ofString path)] }
  refine GoesThrough.cons htable rfl rfl fun table _ => ?_
  simp only [Except.toOption, Option.toList, List.flatMap_cons, List.flatMap_nil]
  refine (e.goesThrough_estimateSource options _ source table).bind ?_
  rintro estimate estimated - ⟨constraint, build, output, inventory, hconstraint, hbuild, houtput,
    hinventory, hsays⟩
  refine GoesThrough.silent (inWorld_pure _ _) rfl ?_
  exact ⟨source, constraint, build, output, inventory, hsource, hconstraint, hbuild, houtput,
    hinventory, rfl, hsays.constraint_eq, hsays.build_eq, hsays.lineCount_eq, hsays.units_eq⟩

/-- All actions of an estimate, in order. -/
def sequence (gets : List Http.Request) (build : Version.Build) (asked : List Files.Path)
    (job : Value) : List Action :=
  .readContract (.ofString path) :: Weights.overlayReads config ++ gets.map .get ++
    .listCompilers ::
      (if build.release ∈ world.toolchain.installed then []
        else [.install build.release e.bridge.progress]) ++
    asked.map .readImport ++ [.compile build.release job]

section

variable {source constraint : String} {build : Version.Build}

/-- The stages of an estimate that finds a build. -/
theorem stages_of_build (htext : world.tree.readText (.ofString path) = .ok source)
    (hconstraint : Source.constraint? source = some constraint)
    (hbuild : e.resolver.resolved constraint world = .ok build) :
    e.stages path config options world =
      [⟨[.readContract (.ofString path)], true⟩,
        ⟨Weights.overlayReads config, (Weights.tableIn world.tree config).isOk⟩,
        ⟨[], (e.chosenMode options.mode).isOk⟩, ⟨[], true⟩,
        ⟨(e.resolver.asks constraint world).map .get, true⟩] ++
      (e.bridge.stages source build options.runs world ++ [e.countStage world]) := by
  have hsource := toOption_eq_some.mpr htext
  have hfound := toOption_eq_some.mpr hbuild
  have hresolved : (e.resolver.resolved constraint world).isOk = true := by
    rw [hbuild]
    rfl
  simp [stages, sourceStages, declaredStages, hsource, hconstraint, hfound, hresolved]

/-- Where a build is found, the stages have the whole sequence of actions. -/
theorem actions_stages (htext : world.tree.readText (.ofString path) = .ok source)
    (hconstraint : Source.constraint? source = some constraint)
    (hbuild : e.resolver.resolved constraint world = .ok build) :
    ∃ asked job, (e.stages path config options world).flatMap Stage.actions =
      e.sequence path config world (e.resolver.asks constraint world) build asked job := by
  let walk := e.bridge.resolver.walk world.tree e.bridge.unitName source
  refine ⟨walk.asked.map e.bridge.resolver.path,
    Job.document ⟨ofPairs walk.sources, options.runs⟩, ?_⟩
  rw [e.stages_of_build path config options world htext hconstraint hbuild]
  simp [Bridge.stages, loadStages, sequence, countStage, walk]

end

/-- The stages do the actions of an estimate in order: all of them if they all succeed, and else a
beginning of them. -/
theorem performed_stages : ∃ (gets : List Http.Request) (build : Version.Build)
    (asked : List Files.Path) (job : Value), gets.length ≤ 1 ∧
    performed (e.stages path config options world) <+:
      e.sequence path config world gets build asked job ∧
    (AllSucceed (e.stages path config options world) →
      performed (e.stages path config options world) =
        e.sequence path config world gets build asked job) := by
  suffices hall : ∃ (gets : List Http.Request) (build : Version.Build) (asked : List Files.Path)
      (job : Value), gets.length ≤ 1 ∧
      (e.stages path config options world).flatMap Stage.actions <+:
        e.sequence path config world gets build asked job ∧
      (AllSucceed (e.stages path config options world) →
        (e.stages path config options world).flatMap Stage.actions =
          e.sequence path config world gets build asked job) by
    obtain ⟨gets, build, asked, job, hgets, hbegins, hwhole⟩ := hall
    refine ⟨gets, build, asked, job, hgets, (performed_begins _).trans hbegins, fun hsucceed => ?_⟩
    rw [performed_of_succeed hsucceed, hwhole hsucceed]
  -- where a stage fails and leaves nothing to go on with, the rest of the sequence does not matter
  cases htext : world.tree.readText (.ofString path) with
  | error failure =>
    have hnone : (world.tree.readText (.ofString path)).toOption = none := by
      rw [htext]
      rfl
    refine ⟨[], ⟨""⟩, [], .null, Nat.zero_le 1, ?_, ?_⟩
    · simp [stages, sequence, hnone]
    · simp [AllSucceed, stages, hnone]
  | ok source =>
    have hsource := toOption_eq_some.mpr htext
    cases hconstraint : Source.constraint? source with
    | none =>
      refine ⟨[], ⟨""⟩, [], .null, Nat.zero_le 1, ?_, ?_⟩
      · simp [stages, sourceStages, sequence, hsource, hconstraint]
      · simp [AllSucceed, stages, sourceStages, hsource, hconstraint]
    | some constraint =>
      have hgets := e.resolver.length_asks_le constraint world
      cases hbuild : e.resolver.resolved constraint world with
      | error failure =>
        refine ⟨e.resolver.asks constraint world, ⟨""⟩, [], .null, hgets, ?_, ?_⟩
        · have hnone : (e.resolver.resolved constraint world).toOption = none := by
            rw [hbuild]
            rfl
          simp [stages, sourceStages, declaredStages, sequence, hsource, hconstraint, hnone]
        · simp [AllSucceed, stages, sourceStages, declaredStages, hsource, hconstraint, hbuild,
            Except.isOk, Except.toBool]
      | ok build =>
        obtain ⟨asked, job, hactions⟩ :=
          e.actions_stages path config options world htext hconstraint hbuild
        exact ⟨_, build, asked, job, hgets, hactions ▸ List.prefix_rfl, fun _ => hactions⟩

/-- An estimate goes through its stages, one behind the other. So what it does outside is a
beginning of the sequence of its actions, with at most one request, and an estimate is returned
exactly if no stage fails, and then the whole sequence is done. -/
theorem estimate_in_stages :
    GoesThrough (e.estimateFile path config options) world (e.stages path config options world)
      (e.Describes path world) ∧
    ∃ (gets : List Http.Request) (build : Version.Build) (asked : List Files.Path) (job : Value),
      gets.length ≤ 1 ∧
      performed (e.stages path config options world) <+:
        e.sequence path config world gets build asked job ∧
      (AllSucceed (e.stages path config options world) →
        performed (e.stages path config options world) =
          e.sequence path config world gets build asked job) :=
  ⟨e.goesThrough_estimateFile path config options world,
    e.performed_stages path config options world⟩

end Estimator

/-- A contract whose import cannot be read, for its name holds the character zero. -/
def zeroSource : String :=
  "pragma solidity ^0.8.0;\nimport \"./a\x00b.sol\";\ncontract Token {}\n"

def zeroWorld : World where
  tree :=
    { workingDirectory := ["work"]
      entries := [(["work"], .directory),
        (["work", "Token.sol"], .file (Text.encode zeroSource))] }
  network := ⟨[.answer ⟨Settings.standard.catalogUrl, 200, "OK",
    "\x7b\"releases\": \x7b\"^0.8.0\": \"soljson-v0.8.0+commit.c7dfd78e.js\"\x7d\x7d"⟩]⟩
  toolchain := ⟨["0.8.0"], none, none, .output (.obj [])⟩
  cache := .empty
  actions := []
  records := []

/-- The only stage that fails is that of an import that cannot be read. The run ends there, and
nothing is compiled. -/
theorem unreadable_import_ends_estimate :
    (∀ stage ∈ standardEstimator.stages "Token.sol" none ⟨.int 0, false, .null⟩ zeroWorld,
      stage.succeeds = false → stage.actions = [.readImport (.ofString "a\x00b.sol")]) ∧
    ((standardEstimator.estimateFile "Token.sol" none ⟨.int 0, false, .null⟩).inWorld
        zeroWorld).2.actions =
      [.readContract (.ofString "Token.sol"),
        .get ⟨Http.Client.standard.session, "https://solc-bin.ethereum.org/bin/list.json", [],
          .int 10⟩,
        .listCompilers, .readImport (.ofString "a\x00b.sol")] := by
  have hsource : zeroWorld.tree.readText (.ofString "Token.sol") = .ok zeroSource := by
    decide +kernel
  have hconstraint : Source.constraint? zeroSource = some "^0.8.0" := by decide +kernel
  have hwalk : standardEstimator.bridge.resolver.walk zeroWorld.tree
      standardEstimator.bridge.unitName zeroSource =
      ⟨[("contract.sol", zeroSource)], [], [], ["a\x00b.sol"], true⟩ := by
    decide +kernel
  have hbuild : standardEstimator.resolver.resolved "^0.8.0" zeroWorld =
      .ok ⟨"v0.8.0+commit.c7dfd78e"⟩ :=
    toOption_eq_some.mp (by decide +kernel)
  have hasks : standardEstimator.resolver.asks "^0.8.0" zeroWorld =
      [⟨Http.Client.standard.session, "https://solc-bin.ethereum.org/bin/list.json", [],
        .int 10⟩] := by
    have haddress : Http.checkAddress standardEstimator.resolver.url = .ok () := by decide +kernel
    have hunknown : zeroWorld.cache.find? "^0.8.0" = none := rfl
    unfold Version.Resolver.asks
    rw [if_pos hunknown]
    exact Http.requests_of_allowed haddress
  have hstages : standardEstimator.stages "Token.sol" none ⟨.int 0, false, .null⟩ zeroWorld =
      [⟨[.readContract (.ofString "Token.sol")], true⟩, ⟨[], true⟩, ⟨[], true⟩, ⟨[], true⟩,
        ⟨[.get ⟨Http.Client.standard.session, "https://solc-bin.ethereum.org/bin/list.json", [],
          .int 10⟩], true⟩,
        ⟨[], true⟩, ⟨[.listCompilers], true⟩, ⟨[], true⟩,
        ⟨[.readImport (.ofString "a\x00b.sol")], false⟩,
        ⟨[.compile "0.8.0" (Job.document ⟨[("contract.sol", zeroSource)], .int 0⟩)], true⟩,
        ⟨[], true⟩, ⟨[], true⟩] := by
    rw [standardEstimator.stages_of_build _ _ _ _ hsource hconstraint hbuild, hasks]
    unfold Bridge.stages
    rw [hwalk]
    rfl
  refine ⟨?_, ?_⟩
  · rw [hstages]
    simp
  · have hactions := (standardEstimator.goesThrough_estimateFile "Token.sol" none
      ⟨.int 0, false, .null⟩ zeroWorld).actions
    rw [hactions, hstages]
    rfl

end Estimate

end AuditHours
