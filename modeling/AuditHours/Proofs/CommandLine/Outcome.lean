import AuditHours.CommandLine.Execution
import AuditHours.Proofs.Estimate.Stages
import AuditHours.Proofs.Report.Delivery

/-!
How a run from the command line ends. A run estimates its contract, delivers the report and closes.
Its exit code tells how the estimate went, its output is the report and nothing else, and its files
stay as they are but for the file of the report. Only a report that is delivered leaves anything
behind outside the log.
-/
namespace AuditHours.CommandLine

open Json Run Report

/-! ### The parts of a run -/

def estimating (settings : Settings) (request : Request) : Run Estimate.Result := do
  let catalogUrl := request.catalogUrl.getD settings.catalogUrl
  let mode := if request.aggregateOnce then .aggregateOnce else settings.mode
  let estimator ← Run.ofResult (fun fault => .argument fault.message)
    (Estimate.Estimator.ofSettings { settings with catalogUrl })
  estimator.estimateFile request.contract request.config
    ⟨.int request.runs, request.countImports, .str mode.name⟩

theorem produce_eq (settings : Settings) (request : Request) :
    produce settings request = estimating settings request >>= fun estimate =>
      Report.deliver request.format (.obj estimate.document) request.output := by
  simp [produce, estimating]

theorem tree_estimating (settings : Settings) (request : Request) (world : World) :
    ((estimating settings request).inWorld world).2.tree = world.tree := by
  unfold estimating
  simp only []
  cases hestimator : Estimate.Estimator.ofSettings
    { settings with catalogUrl := request.catalogUrl.getD settings.catalogUrl } with
  | error fault => rw [inWorld_bind_error (inWorld_ofResult _ _ _)]
  | ok estimator =>
    rw [inWorld_bind_ok (inWorld_ofResult _ _ _)]
    exact estimator.tree_estimateFile _ _ _ world

/-- How a run closes, given how its report was delivered. -/
def closingOf : Except Failure Report.Delivery → Except Failure Closing
  | .ok (.handed text) => .ok { code := exitDone, output := text ++ "\n" }
  | .ok (.written _) => .ok { code := exitDone }
  | .error (.compileErrors errors) => .ok { code := exitFailed, complaint := complaintText errors }
  | .error .interrupted => .ok { code := exitInterrupted }
  | .error failure => if failure.isExpected then .ok { code := exitFailed } else .error failure

theorem inWorld_attempt {α : Type} (stage : Run α) (world : World) :
    (Run.attempt stage).inWorld world =
      (.ok (stage.inWorld world).1, (stage.inWorld world).2) := by
  unfold Run.attempt inWorld ExceptT.run
  simp only [tryCatch, tryCatchThe, MonadExceptOf.tryCatch, ExceptT.tryCatch, ExceptT.map,
    ExceptT.mk, bind, StateT.bind]
  cases stage world with
  | mk result middle => cases result <;> rfl

theorem inWorld_closeFailed (verbose : Bool) (failure : Failure) (world : World) :
    ∃ records, (closeFailed verbose failure).inWorld world =
      (closingOf (.error failure), { world with records }) := by
  cases failure with
  | compileErrors | interrupted => exact ⟨_, rfl⟩
  | noDeclaration | noRelease | catalog | noCompiler | config | source =>
    cases verbose <;> exact ⟨_, rfl⟩
  | fetch | argument | document | file | report | shape | settings | settingsFile =>
    exact ⟨world.records, rfl⟩

theorem inWorld_closeDone (delivery : Report.Delivery) (world : World) :
    ∃ records, (closeDone delivery).inWorld world =
      (closingOf (.ok delivery), { world with records }) := by
  cases delivery <;> exact ⟨_, rfl⟩

/-- Answering a request only adds to the log of what estimating and delivering do. -/
theorem inWorld_answer (settings : Settings) (request : Request) (world : World) :
    ∃ records, (answer settings request).inWorld world =
      (closingOf ((produce settings request).inWorld world).1,
        { ((produce settings request).inWorld world).2 with records }) := by
  unfold answer
  rw [inWorld_bind_ok (inWorld_attempt _ world)]
  cases (produce settings request).inWorld world with
  | mk result after =>
    cases result with
    | ok delivery => exact inWorld_closeDone delivery after
    | error failure => exact inWorld_closeFailed request.verbose failure after

/-- A run is its estimate, and behind an estimate its delivery. -/
theorem inWorld_produce (settings : Settings) (request : Request) (world : World) :
    ∃ result estimated, (estimating settings request).inWorld world = (result, estimated) ∧
      estimated.tree = world.tree ∧
      ((∃ failure, result = .error failure ∧
          (produce settings request).inWorld world = (.error failure, estimated)) ∨
        ∃ estimate delivery after, result = .ok estimate ∧
          (produce settings request).inWorld world = (delivery, after) ∧
          Report.Delivered request.format (.obj estimate.document) request.output estimated
            delivery after) := by
  have htree := tree_estimating settings request world
  rw [produce_eq]
  cases hestimate : (estimating settings request).inWorld world with
  | mk result estimated =>
    rw [hestimate] at htree
    refine ⟨result, estimated, rfl, htree, ?_⟩
    cases result with
    | error failure => exact .inl ⟨failure, rfl, inWorld_bind_error hestimate⟩
    | ok estimate =>
      obtain ⟨delivery, after, hdeliver, hdelivered⟩ := Report.delivered request.format
        (.obj estimate.document) request.output estimated
      exact .inr ⟨estimate, delivery, after, rfl,
        (inWorld_bind_ok hestimate).trans hdeliver, hdelivered⟩

/-- What is left of a run that closes in some way. -/
def outcomeOf (log : String) : Except Failure Closing → Outcome
  | .ok closing =>
    { ending := .ok closing.code, output := closing.output, log := log ++ closing.complaint }
  | .error failure => { ending := .error failure, log }

section

variable {arguments : List String} {environment left : Settings.Environment} {moment : Log.Moment}
  {world after : World} {settings : Settings} {request : Request} {outcome : Outcome} {code : Nat}

/-- A run whose settings, arguments and loggers are in order answers its request. -/
theorem execute_eq (moment : Log.Moment) {registry : Log.Registry}
    {result : Except Failure Report.Delivery} {produced : World}
    (hsettings : settingsIn world.tree environment = .ok (settings, left))
    (hrequest : readArguments arguments = .ok request)
    (hloggers : loggersFor settings request.verbose = .ok registry)
    (hproduce : (produce settings request).inWorld { world with records := [] } =
      (result, produced)) :
    ∃ log records, execute arguments environment moment world =
      (outcomeOf log (closingOf result), left, { produced with records }) := by
  obtain ⟨records, hanswer⟩ := inWorld_answer settings request { world with records := [] }
  rw [hproduce] at hanswer
  unfold execute answerIn
  simp only [hsettings, hrequest, hloggers, hanswer]
  cases closingOf result with
  | ok | error => exact ⟨_, _, rfl⟩

/-- A run that returns had its settings and its loggers in order. -/
theorem ready_of_returns
    (hrequest : readArguments arguments = .ok request)
    (hrun : execute arguments environment moment world = (outcome, left, after))
    (hcode : outcome.ending = .ok code) :
    ∃ settings registry, settingsIn world.tree environment = .ok (settings, left) ∧
      loggersFor settings request.verbose = .ok registry := by
  unfold execute at hrun
  cases hsettings : settingsIn world.tree environment with
  | error failure =>
    rw [hsettings] at hrun
    obtain ⟨rfl, -⟩ := Prod.mk.inj hrun
    simp at hcode
  | ok found =>
    obtain ⟨settings, extended⟩ := found
    simp only [hsettings, hrequest] at hrun
    obtain ⟨houtcome, hleft, -⟩ : _ ∧ extended = left ∧ _ := by simpa using hrun
    subst hleft
    unfold answerIn at houtcome
    cases hloggers : loggersFor settings request.verbose with
    | error failure =>
      rw [hloggers] at houtcome
      subst houtcome
      simp at hcode
    | ok registry => exact ⟨settings, registry, rfl, hloggers⟩

/-- A run that returns has closed with the code that it returns. -/
theorem closing_of_returns {registry : Log.Registry} {result : Except Failure Report.Delivery}
    {produced : World} (hsettings : settingsIn world.tree environment = .ok (settings, left))
    (hrequest : readArguments arguments = .ok request)
    (hloggers : loggersFor settings request.verbose = .ok registry)
    (hproduce : (produce settings request).inWorld { world with records := [] } =
      (result, produced))
    (hrun : execute arguments environment moment world = (outcome, left, after))
    (hcode : outcome.ending = .ok code) :
    ∃ log closing, closingOf result = .ok closing ∧ closing.code = code ∧
      outcome = outcomeOf log (.ok closing) ∧ after.tree = produced.tree := by
  obtain ⟨log, records, hexecute⟩ := execute_eq moment hsettings hrequest hloggers hproduce
  rw [hrun] at hexecute
  obtain ⟨rfl, -, rfl⟩ := hexecute
  cases hclosing : closingOf result with
  | error escaped => simp [hclosing, outcomeOf] at hcode
  | ok closing => exact ⟨log, closing, rfl, by simpa [hclosing, outcomeOf] using hcode, rfl, rfl⟩

theorem closingOf_failed {failure : Failure} {closing : Closing}
    (h : closingOf (.error failure) = .ok closing) :
    closing.output = "" ∧
      (closing.code = exitFailed ∧ failure.isExpected = true ∨
        closing.code = exitInterrupted ∧ failure = .interrupted) ∧
      ∀ errors, failure = .compileErrors errors → closing.complaint = complaintText errors := by
  cases failure with
  | compileErrors errors =>
    cases h
    refine ⟨rfl, .inl ⟨rfl, rfl⟩, fun other hother => ?_⟩
    cases hother
    rfl
  | interrupted =>
    cases h
    exact ⟨rfl, .inr ⟨rfl, rfl⟩, nofun⟩
  | noDeclaration | noRelease | catalog | noCompiler | config | source =>
    cases h
    exact ⟨rfl, .inl ⟨rfl, rfl⟩, nofun⟩
  | fetch | argument | document | file | report | shape | settings | settingsFile =>
    exact nomatch h

theorem closingOf_escaped {format : Report.Format} {data : Value} {output : Option String}
    {failure : Failure} (h : Report.Delivered format data output world (.error failure) after) :
    closingOf (.error failure) = .error failure := by
  rcases h.escapes with ⟨fault, rfl⟩ | ⟨reason, rfl⟩ | ⟨e, rfl⟩ <;> rfl

/-! ### How a run ends -/

/-- How a run of a request ends, given what estimating its contract came to. -/
structure Concludes (request : Request) (world : World) (result : Except Failure Estimate.Result)
    (code : Nat) (outcome : Outcome) (after : World) : Prop where
  code_cases : code = 0 ∨ code = 1 ∨ code = 130
  done_iff : code = 0 ↔ ∃ estimate, result = .ok estimate
  failed_iff : code = 1 ↔ ∃ failure, result = .error failure ∧ failure.isExpected = true
  interrupted_iff : code = 130 ↔ result = .error .interrupted
  handed : ∀ estimate, result = .ok estimate → Report.named request.output = none →
    ∃ text, Report.render request.format (.obj estimate.document) = .ok text ∧
      outcome.output = text ++ "\n" ∧ after.tree = world.tree
  /-- A report whose output is named is all of its file, and nothing else that was there changes. -/
  written : ∀ estimate name, result = .ok estimate → Report.named request.output = some name →
    ∃ text file, Report.render request.format (.obj estimate.document) = .ok text ∧
      Report.fileFor? request.format name = some file ∧ outcome.output = "" ∧
      Report.Written world.tree file text after.tree
  failed : ∀ failure, result = .error failure → outcome.output = "" ∧ after.tree = world.tree
  /-- The log ends with the messages of all compile errors, in order. -/
  complains : ∀ errors, result = .error (.compileErrors errors) → ∃ log, outcome.log =
    log ++ String.join ("Compilation errors found:\n" :: errors.map fun d => d.message ++ "\n")

variable {log : String} {closing : Closing}

theorem concludes_failed {failure : Failure}
    (hclosing : closingOf (.error failure) = .ok closing) (htree : after.tree = world.tree) :
    Concludes request world (.error failure) closing.code (outcomeOf log (.ok closing)) after := by
  obtain ⟨houtput, hcodes, hcomplaint⟩ := closingOf_failed hclosing
  refine ⟨?_, ?_, ?_, ?_, fun _ hok => (nomatch hok), fun _ _ hok => (nomatch hok),
    fun _ _ => ⟨houtput, htree⟩, ?_⟩
  · rcases hcodes with ⟨hcode, -⟩ | ⟨hcode, -⟩
    · exact .inr (.inl hcode)
    · exact .inr (.inr hcode)
  · rcases hcodes with ⟨hcode, -⟩ | ⟨hcode, -⟩
    · simp [hcode, exitFailed]
    · simp [hcode, exitInterrupted]
  · rcases hcodes with ⟨hcode, hexpected⟩ | ⟨hcode, rfl⟩
    · simp [hcode, exitFailed, hexpected]
    · simp [hcode, exitInterrupted, Failure.isExpected]
  · rcases hcodes with ⟨hcode, hexpected⟩ | ⟨hcode, rfl⟩
    · have hother : failure ≠ .interrupted := by
        rintro rfl
        simp [Failure.isExpected] at hexpected
      simp [hcode, exitFailed, hother]
    · simp [hcode, exitInterrupted]
  · intro errors herrors
    exact ⟨log, congrArg (log ++ ·) (hcomplaint errors (Except.error.inj herrors))⟩

theorem concludes_delivered {estimate : Estimate.Result} {delivery : Report.Delivery}
    {estimated delivering : World} (htree : estimated.tree = world.tree)
    (hafter : after.tree = delivering.tree)
    (h : Report.Delivered request.format (.obj estimate.document) request.output estimated
      (.ok delivery) delivering) (hclosing : closingOf (.ok delivery) = .ok closing) :
    Concludes request world (.ok estimate) closing.code (outcomeOf log (.ok closing)) after := by
  have hcode : closing.code = exitDone := by cases delivery <;> cases hclosing <;> rfl
  refine ⟨.inl hcode, ?_, ?_, ?_, ?_, ?_, fun _ herror => (nomatch herror),
    fun _ herror => (nomatch herror)⟩
  · simp [hcode, exitDone]
  · simp [hcode, exitDone]
  · simp [hcode, exitDone]
  · intro other hother hunnamed
    cases hother
    cases h with
    | handed text hrender hname =>
      cases hclosing
      exact ⟨text, hrender, rfl, hafter.trans htree⟩
    | written name text file tree records hrender hname => simp [hunnamed] at hname
  · intro other name hother hname
    cases hother
    cases h with
    | handed text hrender hunnamed => simp [hunnamed] at hname
    | written found text file tree records hrender hfound hfile hadmits hwritten =>
      cases hclosing
      obtain rfl : found = name := Option.some.inj (hfound.symm.trans hname)
      rw [htree] at hwritten
      exact ⟨text, file, hrender, hfile, rfl, by rw [hafter]; exact hwritten⟩

/-- A run that returns an exit code has estimated its contract, and its code, its output and its
files tell how that went. -/
theorem execute_returns (hrequest : readArguments arguments = .ok request)
    (hrun : execute arguments environment moment world = (outcome, left, after))
    (hcode : outcome.ending = .ok code) :
    ∃ settings result estimated, settingsIn world.tree environment = .ok (settings, left) ∧
      (estimating settings request).inWorld { world with records := [] } = (result, estimated) ∧
      Concludes request world result code outcome after := by
  obtain ⟨settings, registry, hsettings, hloggers⟩ := ready_of_returns hrequest hrun hcode
  obtain ⟨result, estimated, hestimate, htree, hproduce⟩ :=
    inWorld_produce settings request { world with records := [] }
  refine ⟨settings, result, estimated, hsettings, hestimate, ?_⟩
  rcases hproduce with ⟨failure, rfl, hproduce⟩ |
    ⟨estimate, delivery, delivering, rfl, hproduce, hdelivered⟩
  · obtain ⟨log, closing, hclosing, rfl, rfl, hafter⟩ :=
      closing_of_returns hsettings hrequest hloggers hproduce hrun hcode
    exact concludes_failed hclosing (hafter.trans htree)
  · obtain ⟨log, closing, hclosing, rfl, rfl, hafter⟩ :=
      closing_of_returns hsettings hrequest hloggers hproduce hrun hcode
    cases delivery with
    | error failure => exact nomatch (closingOf_escaped hdelivered).symm.trans hclosing
    | ok delivery => exact concludes_delivered htree hafter hdelivered hclosing

end

def tokenText : String := "pragma solidity 0.8.0;\ncontract Token \x7b\x7d\n"

/-- Surroundings with the contract and some other files, with a catalog that lists its version, and
with a compiler that compiles it. -/
def tokenWorld (others : List (Files.Place × Files.Entry)) : World where
  tree :=
    { workingDirectory := ["work"]
      entries := (["work"], .directory) ::
        (["work", "Token.sol"], .file (Text.encode tokenText)) :: others }
  network := ⟨[.answer ⟨Settings.standard.catalogUrl, 200, "OK",
    "\x7b\"releases\": \x7b\"0.8.0\": \"soljson-v0.8.0+commit.c7dfd78e.js\"\x7d\x7d"⟩]⟩
  toolchain := ⟨["0.8.0"], none, none, .output (.obj [("contracts", .obj [("contract.sol",
    .obj [("Token", .obj [("abi", .arr [])])])])])⟩
  cache := .empty
  actions := []
  records := []

/-- The report of the contract is written below a directory that is made for it, and the contract
stays as it is. -/
theorem execute_returns_written : ∃ outcome left after,
    execute ["Token.sol", "--output", "out/report"] [] ⟨0, 0⟩ (tokenWorld []) =
        (outcome, left, after) ∧
      outcome.ending = .ok 0 ∧ outcome.output = "" ∧
      (∃ text, after.tree.read ⟨.relative, ["out", "report.txt"]⟩ = .ok (Text.encode text)) ∧
      after.tree.lookup? ["work", "Token.sol"] = some (.file (Text.encode tokenText)) := by
  have hrequest : readArguments ["Token.sol", "--output", "out/report"] =
      .ok { contract := "Token.sol", output := some "out/report" } := by
    decide +kernel
  cases hrun : execute ["Token.sol", "--output", "out/report"] [] ⟨0, 0⟩ (tokenWorld []) with
  | mk outcome rest =>
    obtain ⟨left, after⟩ := rest
    have hcode : outcome.ending = .ok 0 := by
      have hdone : (execute ["Token.sol", "--output", "out/report"] [] ⟨0, 0⟩
          (tokenWorld [])).1.ending.mapError Failure.message = .ok 0 := by
        decide +kernel
      rw [hrun] at hdone
      exact mapError_eq_ok.mp hdone
    obtain ⟨settings, result, estimated, -, -, hconcludes⟩ := execute_returns hrequest hrun hcode
    obtain ⟨estimate, hestimate⟩ := hconcludes.done_iff.mp rfl
    obtain ⟨text, file, -, hfile, houtput, hwritten⟩ :=
      hconcludes.written estimate "out/report" hestimate rfl
    have hplace : fileFor? .text "out/report" = some ⟨.relative, ["out", "report.txt"]⟩ := by
      decide +kernel
    obtain rfl := Option.some.inj (hplace.symm.trans hfile)
    exact ⟨outcome, left, after, rfl, hcode, houtput, ⟨text, hwritten.read_eq⟩,
      hwritten.others _ _ (by decide +kernel) (by decide +kernel)⟩

end AuditHours.CommandLine
