import AuditHours.Proofs.Compiler.Course
import AuditHours.Proofs.Compiler.StandardOutput
import AuditHours.Proofs.Compiler.UnreadableImports
import AuditHours.Proofs.Estimate.Staging

/-!
Compilers that fail. A compiler that crashes still answers: with its own diagnostics if it has left
any, and else with a single error that holds the text of the crash. So a compilation that gets as
far as the compiler ends with these errors, and with those of imports that could not be read, but
never with an inventory. A compiler that turns out to be missing ends it as one that cannot be
loaded.
-/
namespace AuditHours.Compiler

open Json Run Text

variable {bridge : Bridge} {source : String} {build : Version.Build} {runs : Value}
  {world after : World} {result : Except Failure Inventory} {crash : Crash} {entries : List Fields}

/-! ### How far a compilation gets -/

/-- The compiler has been called once, on the release of a build. -/
def Called (build : Version.Build) (world after : World) : Prop :=
  ∃ job, after.actions.filter isCompile =
    world.actions.filter isCompile ++ [.compile build.release job]

theorem not_called_of_filter_eq
    (h : after.actions.filter isCompile = world.actions.filter isCompile) :
    ¬ Called build world after := by
  rintro ⟨job, hcalled⟩
  simp [h] at hcalled

/-- Loading a compiler does not call it. -/
theorem Loads.filter_isCompile {progress : Bool} {loading : Except Failure Unit} {loaded : World}
    {actions : List Action} (h : Loads build progress world loading loaded actions) :
    loaded.actions.filter isCompile = world.actions.filter isCompile := by
  have hnone : actions.filter isCompile = [] := by
    refine List.filter_eq_nil_iff.mpr fun action haction hcompile => ?_
    cases action with
    | compile release job => exact h.loading.not_compile_mem release job haction
    | _ => simp [isCompile] at hcompile
  rw [h.actions_eq, List.filter_append, hnone, List.append_nil]

/-- Nor does reading the imports. -/
theorem filter_isCompile_afterReading (r : Import.Resolver) (world : World) (names : List String)
    (records : List Log.Record) :
    (r.afterReading world names records).actions.filter isCompile =
      world.actions.filter isCompile := by
  simp [Import.Resolver.afterReading, List.filter_map, Function.comp_def, isCompile]

/-! ### What a failed compiler leaves -/

def RunResult.failure? (build : Version.Build) : RunResult → Option Failure
  | .notInstalled text => some (.noCompiler build.name (.notInstalled text))
  | .broken text => some (.argument text)
  | .interrupted => some .interrupted
  | .output _ | .crashed _ => none

/-- What is submitted goes to the compiler, once. -/
theorem Bridge.submit_called (bridge : Bridge) (build : Version.Build) (closure : Import.Closure)
    (gathered : World) (hruns : isRunCount runs = true)
    (hactions : gathered.actions.filter isCompile = world.actions.filter isCompile) :
    Called build world ((bridge.submit build runs closure).inWorld gathered).2 := by
  refine ⟨Job.document ⟨ofPairs closure.sources, runs⟩, ?_⟩
  rw [(bridge.goesThrough_submit build closure gathered hruns).actions, List.filter_append, hactions]
  simp [performed, isCompile]

/-- What is submitted to a compiler that has no output fails as the compiler does. -/
theorem Bridge.submit_fails (bridge : Bridge) (build : Version.Build) (closure : Import.Closure)
    {failure : Failure} (hruns : isRunCount runs = true)
    (hfailure : world.toolchain.result.failure? build = some failure) :
    ((bridge.submit build runs closure).inWorld world).1 = .error failure := by
  obtain ⟨records, -, hsubmit⟩ := bridge.inWorld_submit_job build closure world hruns
  rw [hsubmit]
  have hcompile : ((Compiler.compile build
      (Job.document ⟨ofPairs closure.sources, runs⟩)).inWorld { world with records }).1 =
        .error failure := by
    unfold Compiler.compile
    rw [inWorld_bind_ok (inWorld_act _ _), inWorld_bind_ok (inWorld_get _)]
    cases hresult : world.toolchain.result with
    | output value | crashed crash => simp [hresult, RunResult.failure?] at hfailure
    | notInstalled text | broken text | interrupted =>
      rw [hresult] at hfailure
      obtain rfl := Option.some.inj hfailure
      rfl
  rw [inWorld_bind_error (Prod.ext hcompile rfl)]

/-- A crash with what it has of the compiler's own diagnostics: none, or a list of objects with text
messages. If there are any, one of them states an error. -/
structure Crash.Reports (crash : Crash) (entries : List Fields) : Prop where
  diagnostics : crash.diagnostics.isEmpty = true ∧ entries = [] ∨
    crash.diagnostics = .arr (entries.map .obj)
  texts : ∀ entry ∈ entries, IsText entry "formattedMessage" ∧ IsText entry "message"
  fatal : entries ≠ [] → ∃ entry ∈ entries, statesError entry = true

def RunResult.Fails : RunResult → Prop
  | .crashed crash => ∃ entries, crash.Reports entries
  | .notInstalled _ => True
  | .output _ | .broken _ | .interrupted => False

/-- The message of a crash without diagnostics: its text, trimmed, if there is any. -/
def Crash.message (crash : Crash) : String :=
  if trim crash.text = "" then "solc failed without output" else trim crash.text

def Crash.entry (crash : Crash) : Fields :=
  [("severity", .str "error"), ("type", .str "CompilerError"), ("message", .str crash.message)]

/-- What a crash states: its diagnostics, or itself if it has none. -/
def Crash.stated (crash : Crash) (entries : List Fields) : List Fields :=
  if entries = [] then [crash.entry] else entries

theorem Crash.message_ne_empty (crash : Crash) : crash.message ≠ "" := by
  unfold Crash.message
  split
  · decide
  · assumption

@[simp]
theorem Crash.trim_message (crash : Crash) : trim crash.message = crash.message := by
  unfold Crash.message
  split
  · decide +kernel
  · exact trim_trim crash.text

theorem Crash.message_entry (crash : Crash) :
    (Diagnostic.ofFields crash.entry).message = crash.message := by
  have hformatted : textIn crash.entry "formattedMessage" = "" := rfl
  have hmessage : textIn crash.entry "message" = crash.message := rfl
  simp [Diagnostic.ofFields, hformatted, hmessage, crash.message_ne_empty]

namespace Crash.Reports

/-- The output of a crash is in the standard form and states what the crash does. -/
theorem standardOutput (h : crash.Reports entries) (unitName : String) :
    StandardOutput crash.output unitName (crash.stated entries) [] := by
  have hform : ∀ items : List Fields,
      (∀ entry ∈ items, IsText entry "formattedMessage" ∧ IsText entry "message") →
      StandardOutput (.obj [("errors", .arr (items.map .obj))]) unitName items [] :=
    fun items htexts => ⟨⟨_, [], [], rfl, .inl rfl, .inr ⟨.inl rfl, rfl⟩,
      .inr ⟨.inl rfl, rfl⟩, .nil⟩, htexts⟩
  by_cases hnone : entries = []
  · have hempty : crash.diagnostics.isEmpty = true := by
      rcases h.diagnostics with ⟨hempty, -⟩ | hlist
      · exact hempty
      · simp [hlist, hnone, Value.isEmpty]
    have houtput : crash.output = .obj [("errors", .arr ([crash.entry].map .obj))] := by
      simp [Crash.output, hempty, Crash.entry, Crash.message]
    rw [houtput, Crash.stated, if_pos hnone]
    refine hform _ fun entry hentry => ?_
    obtain rfl := List.mem_singleton.mp hentry
    have hformatted : field? crash.entry "formattedMessage" = none := rfl
    exact ⟨fun v hv => by simp [hformatted] at hv,
      fun v hv => .inr ⟨crash.message, (Option.some.inj hv).symm⟩⟩
  · have hlist : crash.diagnostics = .arr (entries.map .obj) :=
      h.diagnostics.resolve_left fun hempty => hnone hempty.2
    have hfilled : crash.diagnostics.isEmpty = false := by simp [hlist, Value.isEmpty, hnone]
    have houtput : crash.output = .obj [("errors", .arr (entries.map .obj))] := by
      simp [Crash.output, ← hlist, hfilled]
    rw [houtput, Crash.stated, if_neg hnone]
    exact hform entries h.texts

/-- Some of what a crash states is an error. -/
theorem fatal_stated (h : crash.Reports entries) :
    (crash.stated entries).filter statesError ≠ [] := by
  unfold Crash.stated
  split
  · nofun
  · next hsome =>
    obtain ⟨entry, hentry, hstates⟩ := h.fatal hsome
    exact List.ne_nil_of_mem (List.mem_filter.mpr ⟨hentry, hstates⟩)

/-- A crash is judged by the errors that it states and by the imports that could not be read. -/
theorem judged_output (h : crash.Reports entries) (bridge : Bridge)
    (failed : List (String × String)) :
    bridge.judged crash.output failed = .error (.compileErrors
      (((crash.stated entries).filter statesError).map .ofFields ++
        unreported ((crash.stated entries).map .ofFields) failed)) := by
  have hown : ((crash.stated entries).map Diagnostic.ofFields).filter (·.isError) =
      ((crash.stated entries).filter statesError).map .ofFields := by
    simp [List.filter_map, Function.comp_def, Diagnostic.isError_ofFields]
  have hadded : ∀ found,
      (unreported found failed).filter (·.isError) = unreported found failed := by
    intro found
    refine List.filter_eq_self.mpr fun d hd => ?_
    obtain ⟨failure, -, -, rfl⟩ := mem_unreported.mp hd
    exact isError_ofImport failure.1 failure.2
  have hsome := h.fatal_stated
  unfold Bridge.judged Bridge.outcome
  rw [(h.standardOutput bridge.unitName).reported_eq]
  simp only [List.filter_append, hown, hadded]
  simp [hsome]

end Crash.Reports

/-! ### The whole compilation -/

/-- The errors that a crashed compiler leaves: its own and those of imports. -/
structure Crash.LeavesErrors (crash : Crash) (entries : List Fields)
    (failed : List (String × String)) (own added : List Diagnostic) : Prop where
  some_own : own ≠ []
  of_entries : entries ≠ [] → own = (entries.filter statesError).map .ofFields
  /-- A crash without diagnostics leaves one error, whose message is not empty: it is the trimmed text
  of the crash, or says that there is none. -/
  of_text : entries = [] → ∃ d, own = [d] ∧ d.message ≠ "" ∧
    (trim crash.text ≠ "" → d.message = trim crash.text) ∧
    (trim crash.text = "" → d.message = "solc failed without output")
  of_imports : ∀ d ∈ added, ∃ failure ∈ failed, d = .ofImport failure.1 failure.2

theorem Crash.Reports.leavesErrors (h : crash.Reports entries) (found : List Diagnostic)
    (failed : List (String × String)) :
    crash.LeavesErrors entries failed
      (((crash.stated entries).filter statesError).map .ofFields) (unreported found failed) where
  some_own := by simpa using h.fatal_stated
  of_entries := by
    intro hsome
    rw [Crash.stated, if_neg hsome]
  of_text := by
    intro hnone
    rw [Crash.stated, if_pos hnone]
    refine ⟨.ofFields crash.entry, rfl, ?_⟩
    rw [crash.message_entry]
    exact ⟨crash.message_ne_empty, fun htext => if_neg htext, fun htext => if_pos htext⟩
  of_imports := by
    intro d hd
    obtain ⟨failure, hmem, -, rfl⟩ := mem_unreported.mp hd
    exact ⟨failure, hmem, rfl⟩

/-- What a compilation comes to whose compiler fails. -/
structure Bridge.FailsWithCompiler (bridge : Bridge) (source : String) (build : Version.Build)
    (runs : Value) (world : World) (result : Except Failure Inventory) (after : World) : Prop where
  /-- The compiler is called unless the compilation has ended before, be it over the number of runs,
  over the loading of the compiler, or over the name of an import. -/
  called_iff : Called build world after ↔ isRunCount runs = true ∧
    ((load build bridge.progress).inWorld world).1 = .ok () ∧
    ∀ name ∈ (bridge.resolver.walk world.tree bridge.unitName source).asked,
      bridge.resolver.reading world.tree name ≠ .refused
  unloaded : ∀ failure, isRunCount runs = true → ¬ world.toolchain.Interrupts build.release →
    ((load build bridge.progress).inWorld world).1 = .error failure →
    ∃ cause, result = .error (.noCompiler build.name cause)
  interrupted : isRunCount runs = true → world.toolchain.Interrupts build.release →
    result = .error .interrupted
  crashed : ∀ crash entries, world.toolchain.result = .crashed crash → crash.Reports entries →
    (∀ inventory, result ≠ .ok inventory) ∧
    (Called build world after → ∃ own added,
      result = .error (.compileErrors (own ++ added)) ∧
      crash.LeavesErrors entries
        (bridge.resolver.walk world.tree bridge.unitName source).errors own added)
  missing : ∀ text, world.toolchain.result = .notInstalled text →
    (∀ inventory, result ≠ .ok inventory) ∧
    (Called build world after → result = .error (.noCompiler build.name (.notInstalled text)))

/-- Where the compiler fails nothing is estimated. -/
theorem no_estimate_of_fails (e : Estimate.Estimator) (path : String) (config : Option String)
    (options : Estimate.Options) (hfails : world.toolchain.result.Fails)
    (estimate : Estimate.Result) :
    ((e.estimateFile path config options).inWorld world).1 ≠ .ok estimate := by
  intro hestimate
  have hstages := e.goesThrough_estimateFile path config options world
  obtain ⟨source, constraint, build, output, -, htext, hconstraint, hbuild, houtput, -⟩ :=
    hstages.returned estimate hestimate
  have hsucceed := hstages.returns_iff.mp ⟨estimate, hestimate⟩
  rw [e.stages_of_build path config options world htext hconstraint hbuild] at hsucceed
  have hcompiled := (allSucceed_append.mp (allSucceed_append.mp hsucceed).2).1
  have hjudged : (e.bridge.judged output
      (e.bridge.resolver.walk world.tree e.bridge.unitName source).errors).isOk = true := by
    simpa [houtput] using hcompiled ⟨[], world.toolchain.result.output?.any fun output =>
      (e.bridge.judged output
        (e.bridge.resolver.walk world.tree e.bridge.unitName source).errors).isOk⟩
      (by simp [Bridge.stages])
  cases hresult : world.toolchain.result with
  | output value | broken text | interrupted => simp [hresult, RunResult.Fails] at hfails
  | notInstalled text => simp [hresult, RunResult.output?] at houtput
  | crashed crash =>
    rw [hresult] at hfails houtput
    obtain ⟨entries, hreports⟩ := hfails
    obtain rfl := Option.some.inj houtput
    rw [hreports.judged_output] at hjudged
    simp [Except.isOk, Except.toBool] at hjudged

/-- A compilation that stops before the compiler is called ends with an error in any case. -/
theorem Bridge.failsWithCompiler_of_stopped {failure : Failure}
    (hactions : after.actions.filter isCompile = world.actions.filter isCompile)
    (hstopped : isRunCount runs = true → ((load build bridge.progress).inWorld world).1 = .ok () →
      ∃ name ∈ (bridge.resolver.walk world.tree bridge.unitName source).asked,
        bridge.resolver.reading world.tree name = .refused)
    (hunloaded : isRunCount runs = true → ¬ world.toolchain.Interrupts build.release →
      ((load build bridge.progress).inWorld world).1 ≠ .ok () →
      ∃ cause, failure = .noCompiler build.name cause)
    (hinterrupted : isRunCount runs = true → world.toolchain.Interrupts build.release →
      failure = .interrupted) :
    bridge.FailsWithCompiler source build runs world (.error failure) after := by
  have hcalled : ¬ Called build world after := not_called_of_filter_eq hactions
  refine ⟨iff_of_false hcalled ?_, ?_, ?_, ?_, ?_⟩
  · rintro ⟨hruns, hload, htaken⟩
    obtain ⟨name, hmem, hread⟩ := hstopped hruns hload
    exact htaken name hmem hread
  · intro other hruns hheard hload
    obtain ⟨cause, rfl⟩ := hunloaded hruns hheard (by simp [hload])
    exact ⟨cause, rfl⟩
  · intro hruns hinterrupts
    rw [hinterrupted hruns hinterrupts]
  · exact fun _ _ _ _ => ⟨nofun, fun h => absurd h hcalled⟩
  · exact fun _ _ => ⟨nofun, fun h => absurd h hcalled⟩

/-- What is submitted to a compiler that crashes ends with the errors that the crash leaves. -/
theorem Bridge.submit_crashed (bridge : Bridge) (build : Version.Build)
    {sources failed : List (String × String)} (hruns : isRunCount runs = true)
    (hnodup : (sources.map Prod.fst).Nodup) (hcrashed : world.toolchain.result = .crashed crash)
    (hreports : crash.Reports entries) :
    ∃ own added, ((bridge.submit build runs ⟨sources, failed⟩).inWorld world).1 =
        .error (.compileErrors (own ++ added)) ∧
      crash.LeavesErrors entries failed own added := by
  have houtput : world.toolchain.result.output? = some crash.output := by
    rw [hcrashed]
    rfl
  obtain ⟨records, hsubmit, -⟩ := bridge.inWorld_submit_judged build failed world hruns hnodup
    houtput (hreports.standardOutput bridge.unitName).reported_eq
  exact ⟨_, _, (congrArg Prod.fst hsubmit).trans (hreports.judged_output bridge failed),
    hreports.leavesErrors _ _⟩

/-- What is submitted to the compiler ends as the compiler does. -/
theorem Bridge.failsWithCompiler_of_submitted {loaded : World} {actions : List Action}
    {records : List Log.Record} (hruns : isRunCount runs = true)
    (hload : Loads build bridge.progress world (.ok ()) loaded actions)
    (htaken : ∀ name ∈ (bridge.resolver.walk world.tree bridge.unitName source).asked,
      bridge.resolver.reading world.tree name ≠ .refused)
    (hsubmit : (bridge.submit build runs
      ⟨(bridge.resolver.walk world.tree bridge.unitName source).sources,
        (bridge.resolver.walk world.tree bridge.unitName source).errors⟩).inWorld
          (bridge.resolver.afterReading loaded
            (bridge.resolver.walk world.tree bridge.unitName source).asked records) =
          (result, after)) :
    bridge.FailsWithCompiler source build runs world result after := by
  have hanswer : (bridge.resolver.afterReading loaded
      (bridge.resolver.walk world.tree bridge.unitName source).asked records).toolchain.result =
        world.toolchain.result := hload.loading.result_eq
  have hactions := (filter_isCompile_afterReading bridge.resolver loaded
    (bridge.resolver.walk world.tree bridge.unitName source).asked records).trans
      hload.filter_isCompile
  generalize bridge.resolver.afterReading loaded _ records = gathered at *
  have hresult := congrArg Prod.fst hsubmit
  have hcalled : Called build world after := by
    have hsubmitted := bridge.submit_called build
      ⟨(bridge.resolver.walk world.tree bridge.unitName source).sources,
        (bridge.resolver.walk world.tree bridge.unitName source).errors⟩ gathered hruns hactions
    rwa [hsubmit] at hsubmitted
  have hok := congrArg Prod.fst hload.run_eq
  refine ⟨iff_of_true hcalled ⟨hruns, hok, htaken⟩, ?_, ?_, ?_, ?_⟩
  · intro other _ _ hfailed
    simp [hok] at hfailed
  · exact fun _ hinterrupts => absurd hinterrupts hload.loading.not_interrupts
  · intro crash entries hcrashed hreports
    have hnodup := (Import.Walk.run_recorded (bridge.resolver.reading world.tree) bridge.unitName
      source Import.unitLimit).nodup_sources
    obtain ⟨own, added, herrors, hleaves⟩ :=
      bridge.submit_crashed build hruns hnodup (hanswer.trans hcrashed) hreports
    obtain rfl := hresult.symm.trans herrors
    exact ⟨nofun, fun _ => ⟨own, added, rfl, hleaves⟩⟩
  · intro text hmissing
    have hfailure : gathered.toolchain.result.failure? build =
        some (.noCompiler build.name (.notInstalled text)) := by
      rw [hanswer, hmissing]
      rfl
    obtain rfl := hresult.symm.trans (bridge.submit_fails build _ hruns hfailure)
    exact ⟨nofun, fun _ => rfl⟩

/-- A compiler that fails never leads to an inventory, and so never to an estimate. A crash ends the
compilation with the errors that the compiler has reported, or with the text of the crash if it has
reported nothing, and besides with those of imports; a compiler that is missing ends it as one that
cannot be loaded. -/
theorem Bridge.compile_fails_with_compiler
    (hrun : (bridge.compile source build runs).inWorld world = (result, after)) :
    bridge.FailsWithCompiler source build runs world result after ∧
      (world.toolchain.result.Fails →
        ∀ (e : Estimate.Estimator) (path : String) (config : Option String)
          (options : Estimate.Options) (estimate : Estimate.Result),
          ((e.estimateFile path config options).inWorld world).1 ≠ .ok estimate) := by
  refine ⟨?_, fun hfails e path config options estimate =>
    no_estimate_of_fails e path config options hfails estimate⟩
  cases bridge.course source build runs world with
  | uncounted text hruns hstops =>
    obtain ⟨rfl, rfl⟩ := Prod.mk.inj (hrun.symm.trans hstops)
    exact Bridge.failsWithCompiler_of_stopped rfl (by simp [hruns]) (by simp [hruns])
      (by simp [hruns])
  | unloaded hruns hload hstops =>
    obtain ⟨rfl, rfl⟩ := Prod.mk.inj (hrun.symm.trans hstops)
    obtain ⟨-, hfailure⟩ := hload.loading.of_error
    refine Bridge.failsWithCompiler_of_stopped hload.filter_isCompile (by simp [hload.run_eq]) ?_ ?_
    · intro _ hheard _
      exact (hfailure.resolve_right fun hinterrupts => hheard hinterrupts.1).2
    · intro _ hinterrupts
      exact (hfailure.resolve_left fun hheard => hheard.1 hinterrupts).2
  | refused failure records hruns hload hname hstops =>
    obtain ⟨rfl, rfl⟩ := Prod.mk.inj (hrun.symm.trans hstops)
    exact Bridge.failsWithCompiler_of_stopped
      ((filter_isCompile_afterReading ..).trans hload.filter_isCompile) (fun _ _ => hname)
      (by simp [hload.run_eq]) fun _ hinterrupts => absurd hinterrupts hload.loading.not_interrupts
  | submitted records hruns hload htaken hgoes =>
    exact Bridge.failsWithCompiler_of_submitted hruns hload htaken (hgoes.symm.trans hrun)

/-- Surroundings without any imports whose listed compiler is killed before it has reported
anything. -/
def killedWorld : World where
  tree := { workingDirectory := ["work"], entries := [(["work"], .directory)] }
  network := ⟨[]⟩
  toolchain := ⟨["0.8.0"], none, none, .crashed
    ⟨"Killed\n> command: `solc`\n> return code: `9`\n> stdout:\n\n> stderr:\n", .null⟩⟩
  cache := .empty
  actions := []
  records := []

/-- A contract whose compiler is killed and whose import is missing leads to the text of the crash,
and besides at most to the error of the import. -/
theorem compile_fails_with_compiler_killed : ∃ result after,
    (Bridge.standard.compile "import \"./Math.sol\";" ⟨"v0.8.0+commit.c7dfd78e"⟩ (.int 0)).inWorld
        killedWorld = (result, after) ∧
      Called ⟨"v0.8.0+commit.c7dfd78e"⟩ killedWorld after ∧
      ∃ d added, result = .error (.compileErrors (d :: added)) ∧
        d.message = "Killed\n> command: `solc`\n> return code: `9`\n> stdout:\n\n> stderr:" ∧
        ∀ other ∈ added, ∃ marker, other = .ofImport "Math.sol" marker := by
  have hlisted : (⟨"v0.8.0+commit.c7dfd78e"⟩ : Version.Build).release ∈
      killedWorld.toolchain.installed := by
    decide
  have hload := inWorld_load_listed Bridge.standard.progress
    (rfl : killedWorld.toolchain.listError = none) hlisted
  have hasked : (Bridge.standard.resolver.walk killedWorld.tree Bridge.standard.unitName
      "import \"./Math.sol\";").asked = ["Math.sol"] := by
    decide +kernel
  have hfailed : (Bridge.standard.resolver.walk killedWorld.tree Bridge.standard.unitName
      "import \"./Math.sol\";").errors.map Prod.fst = ["Math.sol"] := by
    decide +kernel
  have hmissing : Bridge.standard.resolver.reading killedWorld.tree "Math.sol" ≠ .refused := by
    decide +kernel
  have hreports : ∀ text, Crash.Reports ⟨text, .null⟩ [] :=
    fun _ => ⟨Or.inl ⟨rfl, rfl⟩, nofun, fun h => absurd rfl h⟩
  cases hrun : (Bridge.standard.compile "import \"./Math.sol\";" ⟨"v0.8.0+commit.c7dfd78e"⟩
      (.int 0)).inWorld killedWorld with
  | mk result after =>
    obtain ⟨⟨hcalled, -, -, hcrashed, -⟩, -⟩ := Bridge.compile_fails_with_compiler hrun
    have hwas : Called ⟨"v0.8.0+commit.c7dfd78e"⟩ killedWorld after := by
      refine hcalled.mpr ⟨rfl, by rw [hload], fun name hname => ?_⟩
      rw [hasked, List.mem_singleton] at hname
      rwa [hname]
    obtain ⟨own, added, hresult, hleaves⟩ := (hcrashed _ [] rfl (hreports _)).2 hwas
    obtain ⟨d, rfl, -, hmessage, -⟩ := hleaves.of_text rfl
    refine ⟨result, after, rfl, hwas, d, added, hresult,
      (hmessage (by decide +kernel)).trans (by decide +kernel), ?_⟩
    intro other hother
    obtain ⟨failure, hmem, rfl⟩ := hleaves.of_imports other hother
    have hname : failure.1 ∈ _ := List.mem_map_of_mem hmem
    rw [hfailed, List.mem_singleton] at hname
    exact ⟨failure.2, by rw [hname]⟩

end AuditHours.Compiler
