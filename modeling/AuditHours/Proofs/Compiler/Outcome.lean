import AuditHours.Compiler.Bridge
import AuditHours.Proofs.Import.Gathering
import AuditHours.Settings.Reading

/-!
The outcome of a compilation. Once the imports are gathered, the outcome rests on two things: the
output of the compiler and the imports that could not be read. A crash has an output as well; only a
compiler that is missing, broken or interrupted has none.
-/
namespace AuditHours.Compiler

open Json

def Bridge.standard : Bridge :=
  ⟨.ofBase Settings.standard.vendorBase, Settings.standard.unitName, false⟩

def RunResult.output? : RunResult → Option Value
  | .output value => some value
  | .crashed crash => some crash.output
  | .notInstalled _ | .broken _ | .interrupted => none

/-- What the output of the compiler comes to, given its diagnostics and the imports that could not
be read. -/
def Bridge.outcome (bridge : Bridge) (output : Value) (found : List Diagnostic)
    (failed : List (String × String)) : Except Failure Inventory :=
  let errors := (found ++ unreported found failed).filter (·.isError)
  if errors.isEmpty then (inventoryOf output bridge.unitName).mapError .shape
  else .error (.compileErrors errors)

/-- With a compiler that says nothing, an import that could not be read is the only error. -/
theorem Bridge.outcome_silent (bridge : Bridge) {unit : String} (marker : String)
    (hunit : unit ≠ "") : bridge.outcome (.obj []) [] [(unit, marker)] =
      .error (.compileErrors [.ofImport unit marker]) := by
  have hfilled : unit.toList ≠ [] := by
    intro hempty
    exact hunit (String.toList_injective hempty)
  have hsilent : Source.mentions unit.toList [] = false := by
    simp [Source.mentions, Source.occurrences, hfilled]
  have hunreported : unreported [] [(unit, marker)] = [.ofImport unit marker] := by
    simp [unreported, hsilent]
  unfold Bridge.outcome
  rw [hunreported]
  rfl

def Bridge.conclude (bridge : Bridge) (output : Value) (failed : List (String × String)) :
    Run Inventory := do
  let found ← Run.ofResult .shape (judge output failed)
  (found.filter (! ·.isError)).forM warn
  let errors := found.filter (·.isError)
  if !errors.isEmpty then Run.fail (.compileErrors errors)
  let inventory ← Run.ofResult .shape (inventoryOf output bridge.unitName)
  let names := ", ".intercalate inventory.names
  Run.log .debug logger s!"Compiled {inventory.length} contract unit(s): {names}"
  return inventory

def Bridge.submit (bridge : Bridge) (build : Version.Build) (runs : Value)
    (closure : Import.Closure) : Run Inventory := do
  let job ← Run.ofResult .shape (Job.ofSources closure.sources runs)
  Run.log .info logger s!"Compiling {bridge.unitName} with solc {build.name}"
  let output ← Compiler.compile build job.document
  bridge.conclude output closure.errors

/-- A compilation loads the compiler, gathers the imports and submits them. -/
theorem Bridge.compile_eq (bridge : Bridge) (source : String) (build : Version.Build)
    {runs : Value} (hruns : isRunCount runs = true) :
    bridge.compile source build runs = (do
      load build bridge.progress
      let closure ← bridge.resolver.collect bridge.unitName source
      bridge.submit build runs closure) := by
  unfold Bridge.compile
  rw [hruns]
  rfl

/-- A compilation begins nothing with a number of runs that the compiler does not take. -/
theorem Bridge.inWorld_compile_of_not_runs (bridge : Bridge) (source : String)
    (build : Version.Build) {runs : Value} (hruns : isRunCount runs = false) (world : World) :
    ∃ failure, (bridge.compile source build runs).inWorld world = (.error failure, world) := by
  unfold Bridge.compile
  rw [hruns]
  exact ⟨_, Run.inWorld_bind_error rfl⟩

/-- A release that is listed is not installed again. -/
theorem inWorld_load_listed {build : Version.Build} (progress : Bool) {world : World}
    (hlist : world.toolchain.listError = none)
    (hlisted : build.release ∈ world.toolchain.installed) :
    (load build progress).inWorld world =
      (.ok (), { world with actions := world.actions ++ [.listCompilers] }) := by
  unfold load
  rw [Run.inWorld_bind_ok (Run.inWorld_act _ _), Run.inWorld_bind_ok (Run.inWorld_get _)]
  have hinstalled : world.toolchain.list = .ok world.toolchain.installed := by
    simp [Toolchain.list, hlist]
  simp only [hinstalled, List.contains_iff_mem, hlisted, if_true]
  rfl

/-- Warnings are logged and end nothing. -/
theorem inWorld_forM_warn (warnings : List Diagnostic) (world : World) :
    ∃ after, (warnings.forM warn).inWorld world = (.ok (), after) := by
  induction warnings generalizing world with
  | nil => exact ⟨world, rfl⟩
  | cons d rest ih =>
    obtain ⟨middle, hwarn⟩ : ∃ middle, (warn d).inWorld world = (.ok (), middle) := ⟨_, rfl⟩
    obtain ⟨after, hrest⟩ := ih middle
    refine ⟨after, ?_⟩
    rw [List.forM_eq_forM, List.forM_cons, Run.inWorld_bind_ok hwarn]
    exact hrest

theorem inWorld_compile (build : Version.Build) (job : Value) {world : World} {output : Value}
    (h : world.toolchain.result.output? = some output) :
    ∃ after, (compile build job).inWorld world = (.ok output, after) := by
  unfold compile
  rw [Run.inWorld_bind_ok (Run.inWorld_act _ _), Run.inWorld_bind_ok (Run.inWorld_get _)]
  cases hresult : world.toolchain.result with
  | output value =>
    rw [hresult] at h
    cases h
    exact ⟨_, rfl⟩
  | crashed crash =>
    rw [hresult] at h
    cases h
    simp only []
    split
    · exact ⟨_, rfl⟩
    · exact ⟨_, rfl⟩
  | notInstalled text | broken text | interrupted =>
    rw [hresult] at h
    simp [RunResult.output?] at h

theorem inWorld_conclude (bridge : Bridge) {output : Value} {found : List Diagnostic}
    (failed : List (String × String)) (world : World) (hreported : reported output = .ok found) :
    ∃ after, (bridge.conclude output failed).inWorld world =
      (bridge.outcome output found failed, after) := by
  have hjudge : judge output failed = .ok (found ++ unreported found failed) := by
    simp [judge, hreported, Except.map]
  unfold Bridge.conclude Bridge.outcome
  rw [hjudge, Run.inWorld_bind_ok (Run.inWorld_ofResult _ _ _)]
  obtain ⟨warned, hwarned⟩ := inWorld_forM_warn
    ((found ++ unreported found failed).filter (! ·.isError)) world
  rw [Run.inWorld_bind_ok hwarned]
  cases (found ++ unreported found failed).filter (·.isError) with
  | cons d rest => exact ⟨warned, Run.inWorld_bind_error rfl⟩
  | nil =>
    cases inventoryOf output bridge.unitName with
    | error fault => exact ⟨warned, rfl⟩
    | ok inventory => exact ⟨_, rfl⟩

/-- A compilation whose compiler loads and whose imports can be gathered submits them. -/
theorem Bridge.inWorld_compile_submit {bridge : Bridge} {source : String} {build : Version.Build}
    {runs : Value} {world loaded collected : World} {closure : Import.Closure}
    (hruns : isRunCount runs = true)
    (hload : (load build bridge.progress).inWorld world = (.ok (), loaded))
    (hcollect : (bridge.resolver.collect bridge.unitName source).inWorld loaded =
      (.ok closure, collected)) :
    (bridge.compile source build runs).inWorld world =
      (bridge.submit build runs closure).inWorld collected := by
  rw [Bridge.compile_eq bridge source build hruns, Run.inWorld_bind_ok hload,
    Run.inWorld_bind_ok hcollect]

theorem Job.ofSources_eq (sources : List (String × String)) {runs : Value}
    (hruns : isRunCount runs = true) :
    Job.ofSources sources runs = .ok ⟨ofPairs sources, runs⟩ := by
  cases runs <;> first | rfl | simp [isRunCount] at hruns

/-- What is submitted is compiled as one job, and the output is judged. -/
theorem Bridge.inWorld_submit_job (bridge : Bridge) (build : Version.Build) {runs : Value}
    (closure : Import.Closure) (world : World) (hruns : isRunCount runs = true) :
    ∃ records, records.filter (·.level == .warning) = world.records.filter (·.level == .warning) ∧
      (bridge.submit build runs closure).inWorld world =
        (Compiler.compile build (Job.document ⟨ofPairs closure.sources, runs⟩) >>= fun output =>
          bridge.conclude output closure.errors).inWorld { world with records } := by
  have hunheard : Run.Unheard .warning
      (Run.log .info logger s!"Compiling {bridge.unitName} with solc {build.name}") :=
    Run.Unheard.log _ _ (by decide)
  refine ⟨_, hunheard world, ?_⟩
  unfold Bridge.submit
  rw [Job.ofSources_eq _ hruns, Run.inWorld_bind_ok (Run.inWorld_ofResult _ _ _)]
  exact Run.inWorld_bind_ok (Run.inWorld_log _ _ _ _)

/-- What is submitted to a compiler that answers comes to the outcome of the answer. -/
theorem Bridge.inWorld_submit (bridge : Bridge) (build : Version.Build) {runs output : Value}
    (closure : Import.Closure) {world : World} {found : List Diagnostic}
    (hruns : isRunCount runs = true) (houtput : world.toolchain.result.output? = some output)
    (hreported : reported output = .ok found) :
    ∃ after, (bridge.submit build runs closure).inWorld world =
      (bridge.outcome output found closure.errors, after) := by
  obtain ⟨records, -, hsubmit⟩ := bridge.inWorld_submit_job build closure world hruns
  obtain ⟨compiled, hcompile⟩ := @inWorld_compile build
    (Job.document ⟨ofPairs closure.sources, runs⟩) { world with records } output houtput
  rw [hsubmit, Run.inWorld_bind_ok hcompile]
  exact inWorld_conclude bridge closure.errors compiled hreported

/-- A compiler that is interrupted ends the run once it was called. -/
theorem Bridge.inWorld_submit_interrupted (bridge : Bridge) (build : Version.Build) {runs : Value}
    (closure : Import.Closure) {world : World} (hruns : isRunCount runs = true)
    (hresult : world.toolchain.result = .interrupted) :
    ∃ after job, (bridge.submit build runs closure).inWorld world = (.error .interrupted, after) ∧
      .compile build.release job ∈ after.actions := by
  obtain ⟨records, -, hsubmit⟩ := bridge.inWorld_submit_job build closure world hruns
  have hcompile : (Compiler.compile build (Job.document ⟨ofPairs closure.sources, runs⟩)).inWorld
      { world with records } = (.error .interrupted, { world with
        records
        actions := world.actions ++
          [.compile build.release (Job.document ⟨ofPairs closure.sources, runs⟩)] }) := by
    unfold Compiler.compile
    rw [Run.inWorld_bind_ok (Run.inWorld_act _ _), Run.inWorld_bind_ok (Run.inWorld_get _)]
    simp only [hresult]
    rfl
  rw [hsubmit, Run.inWorld_bind_error hcompile]
  exact ⟨_, _, rfl, List.mem_append_right _ (List.mem_singleton.mpr rfl)⟩

/-- A compilation whose compiler loads and answers comes to the outcome of the answer. -/
theorem Bridge.compile_outcome {bridge : Bridge} {source : String} {build : Version.Build}
    {runs output : Value} {world loaded collected : World} {closure : Import.Closure}
    {found : List Diagnostic} (hruns : isRunCount runs = true)
    (hload : (load build bridge.progress).inWorld world = (.ok (), loaded))
    (hcollect : (bridge.resolver.collect bridge.unitName source).inWorld loaded =
      (.ok closure, collected))
    (houtput : collected.toolchain.result.output? = some output)
    (hreported : reported output = .ok found) :
    ∃ after, (bridge.compile source build runs).inWorld world =
      (bridge.outcome output found closure.errors, after) := by
  rw [Bridge.inWorld_compile_submit hruns hload hcollect]
  exact bridge.inWorld_submit build closure hruns houtput hreported

end AuditHours.Compiler
