import AuditHours.Proofs.Compiler.Loading
import AuditHours.Proofs.Compiler.Outcome
import AuditHours.Proofs.Staging

/-!
The stages of a compilation. The number of optimizer runs is checked, the installed compilers are
listed, a release that is not listed is installed, the imports are read, one job is compiled, and
its output is judged. An import that cannot be read ends nothing, unless its name holds the
character zero.
-/
namespace AuditHours.Compiler

open Json Run

/-- The release of a build is looked for in the list, and installed if it is not there. -/
def loadStages (build : Version.Build) (progress : Bool) (toolchain : Toolchain) : List Stage :=
  [⟨[.listCompilers], toolchain.listError.isNone⟩,
    ⟨if build.release ∈ toolchain.installed then [] else [.install build.release progress],
      build.release ∈ toolchain.installed ∨ toolchain.installError = none⟩]

def Bridge.judged (bridge : Bridge) (output : Value) (failed : List (String × String)) :
    Except Failure Inventory :=
  match reported output with
  | .ok found => bridge.outcome output found failed
  | .error fault => .error (.shape fault)

def Bridge.stages (bridge : Bridge) (source : String) (build : Version.Build) (runs : Value)
    (world : World) : List Stage :=
  let walk := bridge.resolver.walk world.tree bridge.unitName source
  let paths := walk.asked.map bridge.resolver.path
  ⟨[], isRunCount runs⟩ :: (loadStages build bridge.progress world.toolchain ++
    [⟨paths.map .readImport, paths.all fun path => !path.text.toList.contains '\x00'⟩,
      ⟨[.compile build.release (Job.document ⟨ofPairs walk.sources, runs⟩)],
        world.toolchain.result.output?.isSome⟩,
      ⟨[], world.toolchain.result.output?.any fun output =>
        (bridge.judged output walk.errors).isOk⟩])

/-! ### What the stages do -/

/-- Loading a compiler does what its stages do, and ends well exactly if they do. -/
theorem Loading.stages {build : Version.Build} {progress : Bool} {before after : Toolchain}
    {result : Except Failure Unit} {actions : List Action}
    (h : Loading build progress before result after actions) :
    performed (loadStages build progress before) = actions ∧ after.result = before.result ∧
      (result.isOk = true ↔ AllSucceed (loadStages build progress before)) := by
  cases h with
  | unlisted setback hlist =>
    simp [performed, AllSucceed, loadStages, hlist, Except.isOk, Except.toBool]
  | listed hlist hlisted =>
    simp [performed, AllSucceed, loadStages, hlist, hlisted, Except.isOk, Except.toBool]
  | refused _ hlist hmissing hinstall | added hlist hmissing hinstall =>
    simp [performed, AllSucceed, loadStages, hlist, hmissing, hinstall, Except.isOk, Except.toBool]

/-- Loading a compiler lists and installs; how the compiler will answer stays the same. -/
theorem inWorld_load (build : Version.Build) (progress : Bool) (world : World) :
    ∃ result toolchain records, (load build progress).inWorld world =
        (result, { world with
          toolchain, records
          actions := world.actions ++ performed (loadStages build progress world.toolchain) }) ∧
      toolchain.result = world.toolchain.result ∧
      (result.isOk = true ↔ AllSucceed (loadStages build progress world.toolchain)) := by
  obtain ⟨result, toolchain, actions, records, hload, hloading⟩ :=
    inWorld_load_cases build progress world
  obtain ⟨hperformed, hresult, hsucceeds⟩ := hloading.stages
  rw [hperformed]
  exact ⟨result, toolchain, records, hload, hresult, hsucceeds⟩

/-- Compiling does one job, and returns what the compiler answers. -/
theorem inWorld_compile_job (build : Version.Build) (job : Value) (world : World) :
    ∃ result records, (compile build job).inWorld world =
        (result, { world with
          records
          actions := world.actions ++ [.compile build.release job] }) ∧
      result.toOption = world.toolchain.result.output? := by
  unfold compile
  rw [inWorld_bind_ok (inWorld_act _ _), inWorld_bind_ok (inWorld_get _)]
  cases hresult : world.toolchain.result with
  | output value => exact ⟨_, _, rfl, rfl⟩
  | crashed crash =>
    simp only []
    split
    · exact ⟨_, _, rfl, rfl⟩
    · exact ⟨_, _, rfl, rfl⟩
  | notInstalled text | broken text | interrupted =>
    exact ⟨_, _, rfl, rfl⟩

def warning (d : Diagnostic) : Log.Record :=
  { level := .warning, logger, message := "Compiler " ++ plain d.severity ++ ": " ++ d.message }

theorem inWorld_warnings (warnings : List Diagnostic) (world : World) :
    (warnings.forM warn).inWorld world =
      (.ok (), { world with records := world.records ++ warnings.map warning }) := by
  induction warnings generalizing world with
  | nil => simp
  | cons d rest ih =>
    have hwarn : (warn d).inWorld world =
        (.ok (), { world with records := world.records ++ [warning d] }) := rfl
    rw [List.forM_eq_forM, List.forM_cons, inWorld_bind_ok hwarn, ← List.forM_eq_forM, ih]
    simp

/-- Judging an output does nothing outside, and warns of each diagnostic that is not an error. -/
theorem inWorld_conclude_judged (bridge : Bridge) (output : Value)
    (failed : List (String × String)) (world : World) :
    ∃ records, (bridge.conclude output failed).inWorld world =
        (bridge.judged output failed, { world with records }) ∧
      ∀ found, reported output = .ok found →
        records.filter (·.level == .warning) = world.records.filter (·.level == .warning) ++
          ((found ++ unreported found failed).filter (! ·.isError)).map warning := by
  have hwarnings : ∀ (before : List Log.Record) (ds : List Diagnostic),
      (before ++ ds.map warning).filter (·.level == .warning) =
        before.filter (·.level == .warning) ++ ds.map warning := by
    intro before ds
    have hall : (ds.map warning).filter (·.level == .warning) = ds.map warning :=
      List.filter_eq_self.mpr (by simp [warning])
    rw [List.filter_append, hall]
  unfold Bridge.conclude Bridge.judged judge
  cases reported output with
  | error fault => exact ⟨world.records, rfl, by simp⟩
  | ok found =>
    simp only [Except.map, Bridge.outcome]
    rw [inWorld_bind_ok (inWorld_ofResult _ _ _), inWorld_bind_ok (inWorld_warnings _ _)]
    have hfound : ∀ other, (.ok found : Except ShapeFault (List Diagnostic)) = .ok other →
        found = other := fun other h => Except.ok.inj h
    cases (found ++ unreported found failed).filter (·.isError) with
    | cons d rest =>
      refine ⟨_, inWorld_bind_error rfl, fun other hother => ?_⟩
      rw [← hfound other hother, hwarnings]
    | nil =>
      cases inventoryOf output bridge.unitName with
      | error fault =>
        refine ⟨_, rfl, fun other hother => ?_⟩
        rw [← hfound other hother, hwarnings]
      | ok inventory =>
        refine ⟨_, rfl, fun other hother => ?_⟩
        rw [← hfound other hother]
        exact (List.filter_append ..).trans ((List.append_nil _).trans (hwarnings _ _))

theorem Bridge.inventoryOf_of_judged (bridge : Bridge) {output : Value}
    {failed : List (String × String)} {inventory : Inventory}
    (h : bridge.judged output failed = .ok inventory) :
    inventoryOf output bridge.unitName = .ok inventory := by
  unfold judged outcome at h
  split at h
  · simp only [] at h
    split at h
    · exact mapError_eq_ok.mp h
    · simp at h
  · simp at h

/-! ### The stages in order -/

theorem goesThrough_load (build : Version.Build) (progress : Bool) (world : World) :
    GoesThrough (load build progress) world (loadStages build progress world.toolchain)
      fun _ => True := by
  obtain ⟨result, toolchain, records, hload, -, hsucceeds⟩ := inWorld_load build progress world
  refine ⟨?_, ?_, fun _ _ => trivial⟩
  · rw [hload]
  · rw [hload, ← hsucceeds]
    cases result <;> simp [Except.isOk, Except.toBool]

/-- What is submitted is compiled and judged. -/
theorem Bridge.goesThrough_submit (bridge : Bridge) (build : Version.Build) {runs : Value}
    (closure : Import.Closure) (world : World) (hruns : isRunCount runs = true) :
    GoesThrough (bridge.submit build runs closure) world
      [⟨[.compile build.release (Job.document ⟨ofPairs closure.sources, runs⟩)],
          world.toolchain.result.output?.isSome⟩,
        ⟨[], world.toolchain.result.output?.any fun output =>
          (bridge.judged output closure.errors).isOk⟩]
      fun inventory => ∃ output, world.toolchain.result.output? = some output ∧
        inventoryOf output bridge.unitName = .ok inventory := by
  unfold Bridge.submit
  rw [Job.ofSources_eq closure.sources hruns]
  refine GoesThrough.skip (inWorld_ofResult _ _ _) rfl ?_
  refine GoesThrough.skip (inWorld_log _ _ _ _) rfl ?_
  generalize world.records ++ _ = logged
  obtain ⟨result, records, hcompile, hanswer⟩ := inWorld_compile_job build
    (Job.document ⟨ofPairs closure.sources, runs⟩) { world with records := logged }
  refine GoesThrough.cons hcompile rfl ?_ ?_
  · rw [← hanswer]
    cases result <;> rfl
  · rintro output rfl
    have houtput : world.toolchain.result.output? = some output := hanswer.symm
    obtain ⟨ended, hconclude, -⟩ := inWorld_conclude_judged bridge output closure.errors { world with
      records
      actions := world.actions ++
        [.compile build.release (Job.document ⟨ofPairs closure.sources, runs⟩)] }
    refine GoesThrough.single hconclude (by simp) (by simp [houtput]) ?_
    intro inventory hinventory
    exact ⟨output, houtput, bridge.inventoryOf_of_judged hinventory⟩

/-- A compilation goes through its stages, and returns the inventory of what the compiler answers.
-/
theorem Bridge.goesThrough_compile (bridge : Bridge) (source : String) (build : Version.Build)
    (runs : Value) (world : World) :
    GoesThrough (bridge.compile source build runs) world (bridge.stages source build runs world)
      fun inventory => ∃ output, world.toolchain.result.output? = some output ∧
        inventoryOf output bridge.unitName = .ok inventory := by
  unfold Bridge.stages
  cases hruns : isRunCount runs with
  | false =>
    obtain ⟨failure, hfailed⟩ := bridge.inWorld_compile_of_not_runs source build hruns world
    exact GoesThrough.of_failed_check hfailed
  | true =>
    rw [Bridge.compile_eq bridge source build hruns]
    refine GoesThrough.of_check ((goesThrough_load build bridge.progress world).bind ?_)
    intro _ loaded hloaded _
    obtain ⟨_, toolchain, loadRecords, hload, hresult, -⟩ :=
      inWorld_load build bridge.progress world
    rw [hload, Prod.mk.injEq] at hloaded
    obtain ⟨-, rfl⟩ := hloaded
    rw [← hresult]
    obtain ⟨gathered, records, hcollect, hgathered, hclosure⟩ :=
      bridge.resolver.inWorld_collect_all { world with
        toolchain, records := loadRecords
        actions := world.actions ++ performed (loadStages build bridge.progress world.toolchain) }
        (rfl : bridge.resolver.walk world.tree bridge.unitName source = _)
    refine GoesThrough.cons hcollect ?_ ?_ ?_
    · simp [Import.Resolver.afterReading, Function.comp_def]
    · rw [Bool.eq_iff_iff, hgathered]
      simp [Import.Resolver.reading_eq_refused]
    · intro closure hvalue
      obtain rfl := hclosure closure hvalue
      exact bridge.goesThrough_submit build ⟨_, _⟩ _ hruns

end AuditHours.Compiler
