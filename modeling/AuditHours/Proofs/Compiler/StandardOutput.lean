import AuditHours.Proofs.Compiler.Staging
import AuditHours.Proofs.Estimate.Stages
import AuditHours.Proofs.Json.Fields

/-!
Compilations whose compiler answers in the standard form. The compiler gets one job with the
collected sources. The entries of its answer that state an error are what the compilation fails
with, all of them and in order; the others are logged as warnings and change nothing. Without errors
the result holds the units of the answer under the contract's own source unit, and no others.
-/
namespace AuditHours.Compiler

open Json Run Text

/-! ### The standard form -/

/-- A section is absent, null or a list of objects. -/
def IsList (part? : Option Value) (items : List Fields) : Prop :=
  part? = some (.arr (items.map .obj)) ∨ (part? = none ∨ part? = some .null) ∧ items = []

def IsObject (part? : Option Value) (fields : Fields) : Prop :=
  part? = some (.obj fields) ∨ (part? = none ∨ part? = some .null) ∧ fields = []

def IsText (fields : Fields) (key : String) : Prop :=
  ∀ v, field? fields key = some v → v = .null ∨ ∃ text, v = .str text

/-- A contract of the output is an object whose interface is absent, null or a list of objects. -/
def IsContract (contract : String × Value) (unit : String × List Fields) : Prop :=
  contract.1 = unit.1 ∧
    ∃ fields, contract.2 = .obj fields ∧ IsList (field? fields "abi") unit.2

/-- An output of the compiler in the standard form, with its entries and with the units under a
source unit, each with the items of its interface. What stands under other source units may be
anything. -/
structure StandardOutput (output : Value) (unitName : String) (entries : List Fields)
    (units : List (String × List Fields)) : Prop where
  fields : ∃ fields sections contracts, output = .obj fields ∧
    IsList (field? fields "errors") entries ∧ IsObject (field? fields "contracts") sections ∧
    IsObject (field? sections unitName) contracts ∧ List.Forall₂ IsContract contracts units
  texts : ∀ entry ∈ entries, IsText entry "formattedMessage" ∧ IsText entry "message"

def textIn (fields : Fields) (key : String) : String :=
  match field? fields key with
  | some (.str text) => text
  | _ => ""

/-- Whether an entry states an error: it says so, or it has no severity at all. -/
def statesError (entry : Fields) : Bool := (field? entry "severity").all (·.isText "error")

/-- The diagnostic of an entry. Its message is the formatted one, or else the plain one. -/
def Diagnostic.ofFields (entry : Fields) : Diagnostic where
  message := trim (
    if textIn entry "formattedMessage" ≠ "" then textIn entry "formattedMessage"
    else if textIn entry "message" ≠ "" then textIn entry "message"
    else "Unknown compiler error")
  severity := (field? entry "severity").getD (.str "error")
  type := (field? entry "type").getD (.str "Error")
  location := (field? entry "sourceLocation").getD .null

def isOfType (type : String) (item : Fields) : Bool := (field? item "type").any (·.isText type)

/-! ### Reading the output -/

section

variable {entry fields : Fields} {entries items : List Fields} {part? : Option Value}

theorem IsList.entries_eq (h : IsList part? items) :
    Compiler.entries part? = .ok (items.map .obj) := by
  rcases h with rfl | ⟨rfl | rfl, rfl⟩
  · cases items <;> rfl
  · rfl
  · rfl

theorem filled?_textIn {key : String} (h : IsText entry key) :
    Diagnostic.filled? (field? entry key) =
      if textIn entry key ≠ "" then some (.str (textIn entry key)) else none := by
  unfold textIn
  cases hfield : field? entry key with
  | none => rfl
  | some v =>
    rcases h v hfield with rfl | ⟨text, rfl⟩
    · rfl
    · by_cases hempty : text = "" <;>
        simp [Diagnostic.filled?, Value.isEmpty, hempty, Option.filter]

theorem Diagnostic.ofEntry_eq
    (h : IsText entry "formattedMessage" ∧ IsText entry "message") :
    Diagnostic.ofEntry (.obj entry) = .ok (.ofFields entry) := by
  have hmessage : messageValue entry = .str (
      if textIn entry "formattedMessage" ≠ "" then textIn entry "formattedMessage"
      else if textIn entry "message" ≠ "" then textIn entry "message"
      else "Unknown compiler error") := by
    unfold messageValue
    rw [filled?_textIn h.1, filled?_textIn h.2]
    by_cases hformatted : textIn entry "formattedMessage" = ""
    · by_cases hplain : textIn entry "message" = ""
      · simp [hformatted, hplain]
      · simp [hformatted, hplain]
    · simp [hformatted]
  simp only [ofEntry, hmessage]
  rfl

theorem Diagnostic.isError_ofFields (entry : Fields) :
    (Diagnostic.ofFields entry).isError = statesError entry := by
  unfold isError ofFields statesError
  cases field? entry "severity" <;> rfl

theorem ofKind_eq (kind : String) (items : List Fields) :
    ContractUnit.ofKind kind (items.map .obj) = .ok (items.filter (isOfType kind)) := by
  induction items with
  | nil => rfl
  | cons item rest ih =>
    simp only [List.map_cons, ContractUnit.ofKind, ih, List.filter_cons, isOfType]
    by_cases hkind : (field? item "type").any (·.isText kind) = true
    · simp only [hkind, if_true]
      rfl
    · simp only [hkind]
      rfl

def unitWith (unit : String × List Fields) : ContractUnit := ⟨unit.1, unit.2.map .obj⟩

theorem functionCount_unitWith (unit : String × List Fields) :
    (unitWith unit).functionCount = .ok (unit.2.filter (isOfType "function")).length := by
  simp [unitWith, ContractUnit.functionCount, ContractUnit.functions, ofKind_eq, Except.map]

theorem events_unitWith (unit : String × List Fields) :
    (unitWith unit).events = .ok (unit.2.filter (isOfType "event")) :=
  ofKind_eq "event" unit.2

end

namespace StandardOutput

variable {output : Value} {unitName : String} {entries : List Fields}
  {units : List (String × List Fields)}

/-- The diagnostics of an output are those of its entries. -/
theorem reported_eq (h : StandardOutput output unitName entries units) :
    reported output = .ok (entries.map .ofFields) := by
  obtain ⟨fields, sections, contracts, rfl, herrors, -⟩ := h.fields
  have hread : (entries.map Value.obj).mapM Diagnostic.ofEntry =
      .ok (entries.map Diagnostic.ofFields) := by
    rw [mapM_eq_ok, List.forall₂_map_left_iff, List.forall₂_map_right_iff, List.forall₂_same]
    exact fun entry hentry => Diagnostic.ofEntry_eq (h.texts entry hentry)
  simp only [reported, section?, bind, Except.bind, herrors.entries_eq, hread]

/-- The inventory of an output is that of the units under the source unit. -/
theorem inventoryOf_eq (h : StandardOutput output unitName entries units) :
    inventoryOf output unitName = .ok (units.map unitWith) := by
  obtain ⟨fields, sections, contracts, rfl, -, hsections, hcontracts, hunits⟩ := h.fields
  have hread : contracts.mapM (fun member => Inventory.unitOf member.1 member.2) =
      .ok (units.map unitWith) := by
    rw [mapM_eq_ok, List.forall₂_map_right_iff]
    refine hunits.imp ?_
    rintro ⟨name, v⟩ unit ⟨rfl, interface, rfl, hitems⟩
    simp only [Inventory.unitOf, hitems.entries_eq]
    rfl
  have hinventory : Inventory.ofOutput (field? sections unitName) = .ok (units.map unitWith) := by
    unfold Inventory.ofOutput
    rcases hcontracts with hfound | ⟨hfound | hfound, rfl⟩
    · cases contracts with
      | nil =>
        cases hunits
        rw [hfound]
        rfl
      | cons first rest =>
        rw [hfound]
        exact hread
    · cases hunits
      rw [hfound]
      rfl
    · cases hunits
      rw [hfound]
      rfl
  unfold inventoryOf
  rcases hsections with hfound | ⟨hfound | hfound, rfl⟩
  · cases sections with
    | nil | cons =>
      simp only [section?, bind, Except.bind, hfound]
      exact hinventory
  · simp only [section?, bind, Except.bind, hfound]
    exact hinventory
  · simp only [section?, bind, Except.bind, hfound]
    exact hinventory

end StandardOutput

/-! ### What is written to the log -/

theorem unheard_refuse (build : Version.Build) (cause : String → LoadCause) (setback : Setback) :
    Unheard .warning (refuse build cause setback) := by
  cases setback with
  | fails text => exact Unheard.bind (Unheard.log _ _ (by decide)) fun _ => Unheard.fail _
  | interrupted => exact Unheard.throw _

theorem unheard_load (build : Version.Build) (progress : Bool) :
    Unheard .warning (load build progress) := by
  unfold load
  refine Unheard.bind (Unheard.act _) fun _ => Unheard.bind Unheard.get fun world => ?_
  split
  · exact unheard_refuse build _ _
  · split
    · exact Unheard.pure _
    · refine Unheard.bind (Unheard.log _ _ (by decide)) fun _ =>
        Unheard.bind (Unheard.act _) fun _ => Unheard.bind Unheard.get fun installing => ?_
      split
      · exact unheard_refuse build _ _
      · exact Unheard.modify fun _ => rfl

theorem unheard_collect (r : Import.Resolver) (entry source : String) :
    Unheard .warning (r.collect entry source) := by
  have hnote : ∀ name, Unheard .warning (r.note name) := by
    intro name
    unfold Import.Resolver.note
    refine Unheard.bind (Unheard.act _) fun _ => Unheard.bind Unheard.get fun world => ?_
    split
    · exact Unheard.pure _
    · exact Unheard.fail _
    · exact Unheard.log _ _ (by decide)
  unfold Import.Resolver.collect
  refine Unheard.bind Unheard.get fun world => Unheard.bind (Unheard.forM hnote _) fun _ => ?_
  exact Unheard.bind (Unheard.log _ _ (by decide)) fun _ => Unheard.pure _

theorem unheard_compile (build : Version.Build) (job : Value) :
    Unheard .warning (compile build job) := by
  unfold compile
  refine Unheard.bind (Unheard.act _) fun _ => Unheard.bind Unheard.get fun world => ?_
  split
  · exact Unheard.pure _
  · split
    · exact Unheard.bind (Unheard.log _ _ (by decide)) fun _ => Unheard.pure _
    · exact Unheard.pure _
  · exact Unheard.throw _
  · exact Unheard.throw _
  · exact Unheard.throw _

/-! ### The whole compilation -/

def isCompile : Action → Bool
  | .compile _ _ => true
  | _ => false

/-- The number of optimizer runs that a value stands for. -/
def runCount : Value → Int
  | .int n => n
  | .bool true => 1
  | _ => 0

theorem Job.optimized_eq (sources : List (String × String)) {runs : Value}
    (hruns : isRunCount runs = true) :
    (⟨sources, runs⟩ : Job).optimized = decide (0 < runCount runs) := by
  cases runs with
  | bool b => cases b <;> rfl
  | int n => rfl
  | null | real | str | arr | obj => simp [isRunCount] at hruns

/-- What a compilation comes to, given the entries of the answer and the units that it has under the
contract's own source unit. -/
structure Bridge.Answered (bridge : Bridge) (source : String) (build : Version.Build) (runs : Value)
    (world : World) (entries : List Fields) (units : List (String × List Fields))
    (result : Except Failure Inventory) (after : World) : Prop where
  /-- The compiler gets one job. Its sources are what gathering the imports gives, which is the
  contract and the texts of its imports as they are read. Its optimizer is on if there is at least
  one run. -/
  job : ∃ sources job,
    after.actions.filter isCompile =
      world.actions.filter isCompile ++ [.compile build.release job] ∧
    job = .obj [("language", .str "Solidity"),
      ("sources", .obj (sources.map fun (name, text) => (name, .obj [("content", .str text)]))),
      ("settings", .obj [
        ("optimizer", .obj [("enabled", .bool (0 < runCount runs)), ("runs", runs)]),
        ("outputSelection", .obj [("*", .obj [("*", .arr [.str "*"])])])])] ∧
    (∃ gathered, (bridge.resolver.collect bridge.unitName source).inWorld world =
      (.ok ⟨sources, []⟩, gathered)) ∧
    (bridge.unitName, source) ∈ sources ∧
    ∀ unit ∈ sources, unit = (bridge.unitName, source) ∨
      bridge.resolver.reading world.tree unit.1 = .text unit.2
  fails_iff : (∃ errors, result = .error (.compileErrors errors)) ↔
    ∃ entry ∈ entries, statesError entry = true
  fails_with : ∀ errors, result = .error (.compileErrors errors) →
    errors = (entries.filter statesError).map .ofFields
  returns : (∀ entry ∈ entries, statesError entry = false) → result = .ok (units.map unitWith)
  members : ∀ unit ∈ units,
    (unitWith unit).functionCount = .ok (unit.2.filter (isOfType "function")).length ∧
    (unitWith unit).events = .ok (unit.2.filter (isOfType "event"))
  warns : after.records.filter (·.level == .warning) =
    world.records.filter (·.level == .warning) ++
      (entries.filter (! statesError ·)).map fun entry => warning (.ofFields entry)

section

variable {bridge : Bridge} {source : String} {build : Version.Build} {progress : Bool}
  {runs output : Value} {world loaded : World} {entries : List Fields}
  {units : List (String × List Fields)}

/-- Loading a compiler changes neither the files nor how the compiler will answer. -/
theorem load_keeps (h : (load build progress).inWorld world = (.ok (), loaded)) :
    loaded.tree = world.tree ∧ loaded.toolchain.result = world.toolchain.result ∧
      loaded.actions.filter isCompile = world.actions.filter isCompile ∧
      loaded.records.filter (·.level == .warning) =
        world.records.filter (·.level == .warning) := by
  have hquiet := quiet_load (p := isCompile) build progress rfl (fun _ => rfl) world
  have hunheard := unheard_load build progress world
  obtain ⟨_, toolchain, records, hloading, hanswer, -⟩ := inWorld_load build progress world
  have hresult : ((load build progress).inWorld world).2.toolchain.result =
      world.toolchain.result := by
    rw [hloading]
    exact hanswer
  rw [h] at hquiet hunheard hresult
  exact ⟨hquiet.1, hresult, hquiet.2, hunheard⟩

theorem Bridge.judged_eq (hstandard : StandardOutput output bridge.unitName entries units) :
    bridge.judged output [] =
      if (entries.filter statesError).isEmpty then .ok (units.map unitWith)
      else .error (.compileErrors ((entries.filter statesError).map .ofFields)) := by
  have herrors : ((entries.map Diagnostic.ofFields) ++ unreported (entries.map .ofFields) []).filter
      (·.isError) = (entries.filter statesError).map .ofFields := by
    simp [unreported, List.filter_map, Function.comp_def, Diagnostic.isError_ofFields]
  unfold judged outcome
  rw [hstandard.reported_eq, hstandard.inventoryOf_eq]
  simp only [herrors, List.isEmpty_map]
  rfl

/-- An answer fails if one of its entries states an error. -/
theorem Bridge.judged_fails_iff (h : StandardOutput output bridge.unitName entries units) :
    (∃ errors, bridge.judged output [] = .error (.compileErrors errors)) ↔
      ∃ entry ∈ entries, statesError entry = true := by
  rw [Bridge.judged_eq h]
  by_cases hnone : (entries.filter statesError).isEmpty = true
  · rw [if_pos hnone]
    rw [List.isEmpty_iff, List.filter_eq_nil_iff] at hnone
    simpa using hnone
  · rw [if_neg hnone]
    rw [List.isEmpty_iff, List.filter_eq_nil_iff] at hnone
    simpa using hnone

/-- An output that is judged a failure fails with the entries that state an error. -/
theorem Bridge.errors_of_judged (h : StandardOutput output bridge.unitName entries units)
    {errors : List Diagnostic}
    (hfailed : bridge.judged output [] = .error (.compileErrors errors)) :
    errors = (entries.filter statesError).map .ofFields := by
  rw [Bridge.judged_eq h] at hfailed
  by_cases hnone : (entries.filter statesError).isEmpty = true
  · simp [hnone] at hfailed
  · rw [if_neg hnone] at hfailed
    simpa using hfailed.symm

/-- An answer without an entry that states an error has the units that it lists. -/
theorem Bridge.judged_eq_ok (h : StandardOutput output bridge.unitName entries units)
    (hnone : ∀ entry ∈ entries, statesError entry = false) :
    bridge.judged output [] = .ok (units.map unitWith) := by
  rw [Bridge.judged_eq h, if_pos]
  simpa [List.isEmpty_iff, List.filter_eq_nil_iff] using hnone

/-- What is submitted is compiled as one job and judged. -/
theorem Bridge.inWorld_submit_judged (bridge : Bridge) (build : Version.Build)
    (failed : List (String × String)) (world : World) {sources : List (String × String)}
    {found : List Diagnostic} (hruns : isRunCount runs = true)
    (hnodup : (sources.map Prod.fst).Nodup)
    (houtput : world.toolchain.result.output? = some output)
    (hreported : reported output = .ok found) :
    ∃ records, (bridge.submit build runs ⟨sources, failed⟩).inWorld world =
        (bridge.judged output failed, { world with
          records
          actions := world.actions ++ [.compile build.release (Job.document ⟨sources, runs⟩)] }) ∧
      records.filter (·.level == .warning) = world.records.filter (·.level == .warning) ++
        ((found ++ unreported found failed).filter (! ·.isError)).map warning := by
  obtain ⟨noted, hnoted, hsubmit⟩ := bridge.inWorld_submit_job build ⟨sources, failed⟩ world hruns
  rw [ofPairs_of_nodup hnodup] at hsubmit
  obtain ⟨result, compiled, hcompile, hanswer⟩ := inWorld_compile_job build
    (Job.document ⟨sources, runs⟩) { world with records := noted }
  have hcompiled := unheard_compile build (Job.document ⟨sources, runs⟩)
    { world with records := noted }
  rw [hcompile] at hcompiled
  obtain rfl : result = .ok output := toOption_eq_some.mp (hanswer.trans houtput)
  obtain ⟨records, hconclude, hwarned⟩ := inWorld_conclude_judged bridge output failed { world with
    records := compiled
    actions := world.actions ++ [.compile build.release (Job.document ⟨sources, runs⟩)] }
  refine ⟨records, hsubmit.trans ((inWorld_bind_ok hcompile).trans hconclude), ?_⟩
  rw [hwarned found hreported]
  exact congrArg (· ++ _) (hcompiled.trans hnoted)

/-- A compilation whose compiler loads, whose imports are all readable and whose compiler answers in
the standard form comes to what the answer says. -/
theorem Bridge.compile_answered (hruns : isRunCount runs = true)
    (hload : (load build bridge.progress).inWorld world = (.ok (), loaded))
    (hreadable : ∀ name ∈ (bridge.resolver.walk world.tree bridge.unitName source).asked,
      ∃ text, bridge.resolver.reading world.tree name = .text text)
    (houtput : world.toolchain.result.output? = some output)
    (hstandard : StandardOutput output bridge.unitName entries units) :
    ∃ result after, (bridge.compile source build runs).inWorld world = (result, after) ∧
      bridge.Answered source build runs world entries units result after := by
  obtain ⟨htree, hanswer, hactions, hwarnings⟩ := load_keeps hload
  have hrecorded : Import.Walk.Recorded (bridge.resolver.reading world.tree) bridge.unitName source
      (bridge.resolver.walk world.tree bridge.unitName source) :=
    Import.Walk.run_recorded _ _ _ _
  generalize hw : bridge.resolver.walk world.tree bridge.unitName source = w at *
  have htaken : ∀ name ∈ w.asked, bridge.resolver.reading world.tree name ≠ .refused := by
    intro name hname hrefused
    obtain ⟨text, htext⟩ := hreadable name hname
    simp [htext] at hrefused
  obtain ⟨gatheredRecords, hgather⟩ := bridge.resolver.inWorld_collect world hw htaken
  rw [← htree] at hw htaken
  obtain ⟨records, hcollect⟩ := bridge.resolver.inWorld_collect loaded hw htaken
  rw [hrecorded.errors_of_readable hreadable] at hgather hcollect
  have hcollectWarnings := unheard_collect bridge.resolver bridge.unitName source loaded
  rw [hcollect] at hcollectWarnings
  rw [← hanswer] at houtput
  obtain ⟨judgedRecords, hsubmit, hwarned⟩ := bridge.inWorld_submit_judged build []
    (bridge.resolver.afterReading loaded w.asked records) hruns hrecorded.nodup_sources houtput
    hstandard.reported_eq
  refine ⟨_, _, (Bridge.inWorld_compile_submit hruns hload hcollect).trans hsubmit, ?_⟩
  refine ⟨?_, Bridge.judged_fails_iff hstandard, fun _ => Bridge.errors_of_judged hstandard,
    Bridge.judged_eq_ok hstandard, ?_, ?_⟩
  · refine ⟨w.sources, Job.document ⟨w.sources, runs⟩, ?_, ?_, ⟨_, hgather⟩, ?_,
      fun unit hunit => hrecorded.mem_sources hunit⟩
    · have hreads : (w.asked.map fun name => Action.readImport (bridge.resolver.path name)).filter
          isCompile = [] :=
        List.filter_eq_nil_iff.mpr (by simp [isCompile])
      simp only [Import.Resolver.afterReading, List.filter_append, hactions, hreads]
      rw [List.append_nil]
      rfl
    · rw [← Job.optimized_eq w.sources hruns]
      rfl
    · rw [hrecorded.sources_eq]
      exact List.mem_cons_self ..
  · exact fun unit _ => ⟨functionCount_unitWith unit, events_unitWith unit⟩
  · refine hwarned.trans (congrArg₂ (· ++ ·) (hcollectWarnings.trans hwarnings) ?_)
    simp [unreported, List.filter_map, Function.comp_def, Diagnostic.isError_ofFields]

end

/-- An answer with a warning, with a contract that has a function and an event, and with something
else under another source unit. -/
def abiOutput : Value :=
  .obj [("errors", .arr [.obj [("severity", .str "warning"), ("message", .str " Unused\n")]]),
    ("contracts", .obj [("Math.sol", .bool true),
      ("contract.sol", .obj [("Token", .obj [("abi", .arr [.obj [("type", .str "function")],
        .obj [("type", .str "event")]])])])])]

def abiWorld : World where
  tree :=
    { workingDirectory := ["work"]
      entries := [(["work"], .directory), (["work", "Math.sol"], .file (encode "library Math {}"))] }
  network := ⟨[]⟩
  toolchain := ⟨["0.8.0"], none, none, .output abiOutput⟩
  cache := .empty
  actions := []
  records := []

/-- A contract that imports the library is compiled in spite of the warning, and the result has its
only unit. -/
theorem compile_answered_warning : ∃ result after,
    (Bridge.standard.compile "import \"./Math.sol\";" ⟨"v0.8.0+commit.c7dfd78e"⟩ (.int 200)).inWorld
        abiWorld = (result, after) ∧
      Bridge.standard.Answered "import \"./Math.sol\";" ⟨"v0.8.0+commit.c7dfd78e"⟩ (.int 200)
        abiWorld [[("severity", .str "warning"), ("message", .str " Unused\n")]]
        [("Token", [[("type", .str "function")], [("type", .str "event")]])] result after ∧
      result = .ok [⟨"Token", [.obj [("type", .str "function")], .obj [("type", .str "event")]]⟩] ∧
      after.records.filter (·.level == .warning) =
        [{ level := .warning, logger, message := "Compiler warning: Unused" }] := by
  have hlisted : (⟨"v0.8.0+commit.c7dfd78e"⟩ : Version.Build).release ∈
      abiWorld.toolchain.installed := by
    decide
  have hload := inWorld_load_listed Bridge.standard.progress
    (rfl : abiWorld.toolchain.listError = none) hlisted
  have hwalk : Bridge.standard.resolver.walk abiWorld.tree Bridge.standard.unitName
      "import \"./Math.sol\";" =
      ⟨[("contract.sol", "import \"./Math.sol\";"), ("Math.sol", "library Math {}")], [], [],
        ["Math.sol"], false⟩ := by
    decide +kernel
  have hreadable : ∀ name ∈ (Bridge.standard.resolver.walk abiWorld.tree
      Bridge.standard.unitName "import \"./Math.sol\";").asked,
      ∃ text, Bridge.standard.resolver.reading abiWorld.tree name = .text text := by
    intro name hname
    rw [hwalk] at hname
    obtain rfl := List.mem_singleton.mp hname
    exact ⟨"library Math {}", by decide +kernel⟩
  have hstandard : StandardOutput abiOutput Bridge.standard.unitName
      [[("severity", .str "warning"), ("message", .str " Unused\n")]]
      [("Token", [[("type", .str "function")], [("type", .str "event")]])] := by
    refine ⟨⟨_, _, _, rfl, Or.inl rfl, Or.inl rfl, Or.inl rfl, ?_⟩, ?_⟩
    · exact .cons ⟨rfl, _, rfl, Or.inl rfl⟩ .nil
    · simp [IsText, field?]
  obtain ⟨result, after, hrun, hanswered⟩ := Bridge.compile_answered
    (rfl : isRunCount (.int 200) = true) hload hreadable rfl hstandard
  refine ⟨result, after, hrun, hanswered, hanswered.returns (by decide), ?_⟩
  rw [hanswered.warns]
  decide +kernel

end AuditHours.Compiler
