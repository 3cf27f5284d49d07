import AuditHours.Proofs.CommandLine.Outcome
import AuditHours.Proofs.Report.Rendering

/-!
Runs that have an estimate to deliver. Its report can always be rendered, so such a run returns an
exit code exactly if no output is named or the file tree takes a file where the report goes. Else
the failure of the delivery escapes, and there is no exit code.
-/
namespace AuditHours.CommandLine

open Json Run

def HasEstimate (arguments : List String) (environment : Settings.Environment) (world : World)
    (request : Request) : Prop :=
  ∃ settings left registry estimate estimated,
    settingsIn world.tree environment = .ok (settings, left) ∧
    readArguments arguments = .ok request ∧
    loggersFor settings request.verbose = .ok registry ∧
    (estimating settings request).inWorld { world with records := [] } = (.ok estimate, estimated)

def reachesEstimate (arguments : List String) (environment : Settings.Environment) (world : World)
    (request : Request) : Bool :=
  match settingsIn world.tree environment with
  | .ok (settings, _) =>
    readArguments arguments == .ok request && (loggersFor settings request.verbose).isOk &&
      ((estimating settings request).inWorld { world with records := [] }).1.isOk
  | .error _ => false

theorem hasEstimate_of_reaches {arguments : List String} {environment : Settings.Environment}
    {world : World} {request : Request}
    (h : reachesEstimate arguments environment world request = true) :
    HasEstimate arguments environment world request := by
  unfold reachesEstimate at h
  cases hsettings : settingsIn world.tree environment with
  | error failure => simp [hsettings] at h
  | ok found =>
    obtain ⟨settings, left⟩ := found
    simp only [hsettings, Bool.and_eq_true, beq_iff_eq] at h
    obtain ⟨⟨hrequest, hloggers⟩, hestimate⟩ := h
    obtain ⟨registry, hregistry⟩ := exists_of_isOk hloggers
    obtain ⟨estimate, hestimate⟩ := exists_of_isOk hestimate
    exact ⟨settings, left, registry, estimate, _, hsettings, hrequest, hregistry,
      Prod.ext hestimate rfl⟩

theorem returns_estimating (settings : Settings) (request : Request) :
    Run.Returns Estimate.Result.Writable (estimating settings request) :=
  Run.Returns.after fun estimator => Estimate.returns_estimateFile estimator _ _ _

/-- How a run ends that has an estimate. -/
structure Delivers (request : Request) (world : World) (ending : Except Failure Nat) : Prop where
  returns_iff : (∃ code, ending = .ok code) ↔
    ∀ name, Report.named request.output = some name →
      ∃ file, Report.fileFor? request.format name = some file ∧ world.tree.Admits file
  code_eq : ∀ code, ending = .ok code → code = 0
  escapes : ∀ failure, ending = .error failure →
    (∃ reason, failure = .argument reason) ∨ ∃ e, failure = .file e

/-- A run that has an estimate returns an exit code exactly if the report can be delivered; nothing
but the file that was named for the report can keep it from that. -/
theorem returns_iff_deliverable {arguments : List String} {environment : Settings.Environment}
    {world : World} {request : Request} (h : HasEstimate arguments environment world request)
    (moment : Log.Moment) :
    Delivers request world (execute arguments environment moment world).1.ending := by
  obtain ⟨settings, left, registry, estimate, estimated, hsettings, hrequest, hloggers, hestimate⟩ :=
    h
  obtain ⟨result, found, hfound, htree, hproduce⟩ :=
    inWorld_produce settings request { world with records := [] }
  obtain ⟨rfl, rfl⟩ := Prod.mk.inj (hfound.symm.trans hestimate)
  obtain ⟨text, hrender⟩ := Report.render_ok request.format
    (returns_estimating settings request _ _ _ hestimate)
  rcases hproduce with ⟨failure, hfailed, -⟩ |
    ⟨other, delivery, delivering, hother, hproduce, hdelivered⟩
  · exact nomatch hfailed
  obtain rfl := Except.ok.inj hother
  obtain ⟨log, records, hexecute⟩ := execute_eq moment hsettings hrequest hloggers hproduce
  rw [hexecute]
  have hiff := hdelivered.ok_iff
  rw [htree] at hiff
  cases delivery with
  | error failure =>
    have hundeliverable : ¬ Report.Deliverable request.format request.output world.tree :=
      fun hdeliverable => nomatch hiff.mpr ⟨⟨text, hrender⟩, hdeliverable⟩
    rw [closingOf_escaped hdelivered]
    refine ⟨iff_of_false nofun hundeliverable, nofun, ?_⟩
    intro escaped hescaped
    obtain rfl : failure = escaped := Except.error.inj hescaped
    cases hdelivered with
    | unrendered fault hrefused => simp [hrefused] at hrender
    | nameless name text reason hrender hname hfile => exact .inl ⟨reason, rfl⟩
    | refused name text file e tree hrender hname hfile hrefuses => exact .inr ⟨e, rfl⟩
  | ok delivery =>
    have hdeliverable : Report.Deliverable request.format request.output world.tree :=
      (hiff.mp ⟨delivery, rfl⟩).2
    have hending : (outcomeOf log (closingOf (.ok delivery))).ending = .ok 0 := by
      cases delivery <;> rfl
    refine ⟨iff_of_true ⟨0, hending⟩ hdeliverable, ?_, ?_⟩
    · intro code hcode
      exact (Except.ok.inj (hending.symm.trans hcode)).symm
    · intro failure hfailure
      exact nomatch hending.symm.trans hfailure

def tokenRequest (output : String) : Request := { contract := "Token.sol", output := some output }

/-- The report of a contract goes below a directory that is made for it. -/
theorem returns_iff_deliverable_below :
    HasEstimate ["Token.sol", "--output", "out/report"] [] (tokenWorld [])
        (tokenRequest "out/report") ∧
      (tokenWorld []).tree.Admits ⟨.relative, ["out", "report.txt"]⟩ ∧
      (execute ["Token.sol", "--output", "out/report"] [] ⟨0, 0⟩ (tokenWorld [])).1.ending =
        .ok 0 := by
  have hestimate : HasEstimate ["Token.sol", "--output", "out/report"] [] (tokenWorld [])
      (tokenRequest "out/report") := hasEstimate_of_reaches (by decide +kernel)
  have hfile : Report.fileFor? .text "out/report" =
      some ⟨.relative, ["out", "report.txt"]⟩ := by
    decide +kernel
  have hadmits : (tokenWorld []).tree.Admits ⟨.relative, ["out", "report.txt"]⟩ := by
    decide +kernel
  have hdelivers := returns_iff_deliverable hestimate ⟨0, 0⟩
  obtain ⟨code, hcode⟩ := hdelivers.returns_iff.mpr fun name hname => by
    obtain rfl : "out/report" = name := Option.some.inj hname
    exact ⟨_, hfile, hadmits⟩
  obtain rfl := hdelivers.code_eq code hcode
  exact ⟨hestimate, hadmits, hcode⟩

/-- A report does not go where a directory stands: the run has an estimate and yet returns no exit
code, for the refusal of the file system escapes. -/
theorem directory_in_place_escapes :
    HasEstimate ["Token.sol", "--output", "report"] []
        (tokenWorld [(["work", "report.txt"], .directory)]) (tokenRequest "report") ∧
      ∀ code, (execute ["Token.sol", "--output", "report"] [] ⟨0, 0⟩
        (tokenWorld [(["work", "report.txt"], .directory)])).1.ending ≠ .ok code := by
  refine ⟨hasEstimate_of_reaches (by decide +kernel), fun code hcode => ?_⟩
  have hescaped : (execute ["Token.sol", "--output", "report"] [] ⟨0, 0⟩
      (tokenWorld [(["work", "report.txt"], .directory)])).1.ending.mapError Failure.message =
        .error "[Errno 21] Is a directory: 'report.txt'" := by
    decide +kernel
  rw [hcode] at hescaped
  exact nomatch hescaped

end AuditHours.CommandLine
