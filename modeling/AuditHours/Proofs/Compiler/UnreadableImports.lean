import AuditHours.Proofs.Compiler.Outcome
import Mathlib.Tactic.ByContra

/-!
Imports that could not be read. The compilation adds an error for such an import unless the messages
of the compiler mention its name, and it looks for the name in the messages of warnings as well, all
joined into one text. So an import surfaces in the errors unless it is masked: the joined messages
mention it, but no error of the compiler does, nor the error of another import.
-/
namespace AuditHours.Compiler

open Json

/-- A marker is mentioned where it stands in a text as a block. -/
theorem mentions_iff (marker cs : List Char) :
    Source.mentions marker cs = true ↔ marker <:+: cs := by
  unfold Source.mentions
  induction cs with
  | nil => simp [Source.occurrences]
  | cons c rest ih =>
    rw [List.infix_cons_iff, ← ih, ← List.isPrefixOf_iff_prefix]
    by_cases hprefix : marker.isPrefixOf (c :: rest) = true
    · simp [Source.occurrences, hprefix]
    · simp [Source.occurrences, hprefix]

def Occurs (part whole : String) : Prop := part.toList <:+: whole.toList

def joined (found : List Diagnostic) : String := " ".intercalate (found.map (·.message))

/-- Every unit that could not be read is named by an error that the compilation ends with. -/
def Surfaced (result : Except Failure Inventory) (failed : List (String × String)) : Prop :=
  ∃ errors, result = .error (.compileErrors errors) ∧ (∀ d ∈ errors, d.isError = true) ∧
    ∀ failure ∈ failed, ∃ d ∈ errors, Occurs failure.1 d.message

/-- A unit is mentioned by the joined messages, but by no error of the compiler and by no error that
is added for an import. -/
structure Masked (found : List Diagnostic) (failed : List (String × String)) (unit : String) :
    Prop where
  mentioned : Occurs unit (joined found)
  unnamed : ∀ d ∈ found, d.isError = true → ¬ Occurs unit d.message
  unadded : ∀ other ∈ failed, ¬ Occurs other.1 (joined found) →
    ¬ Occurs unit (Diagnostic.ofImport other.1 other.2).message

theorem isError_ofImport (unit marker : String) : (Diagnostic.ofImport unit marker).isError = true :=
  rfl

/-- The error of an import names its unit. -/
theorem occurs_ofImport (unit marker : String) :
    Occurs unit (Diagnostic.ofImport unit marker).message := by
  refine ⟨[], (": " ++ marker).toList, ?_⟩
  simp [Diagnostic.ofImport]

/-- An error is added for each import that no message mentions, and for no other. -/
theorem mem_unreported {found : List Diagnostic} {failed : List (String × String)}
    {d : Diagnostic} : d ∈ unreported found failed ↔
      ∃ failure ∈ failed, ¬ Occurs failure.1 (joined found) ∧
        d = Diagnostic.ofImport failure.1 failure.2 := by
  have hsilent : ∀ failure : String × String,
      (!Source.mentions failure.1.toList (joined found).toList) = true ↔
        ¬ Occurs failure.1 (joined found) := by
    intro failure
    rw [Bool.not_eq_true', ← Bool.not_eq_true, mentions_iff]
    rfl
  constructor
  · intro hd
    obtain ⟨failure, hfailure, rfl⟩ := List.mem_map.mp hd
    obtain ⟨hmem, hkept⟩ := List.mem_filter.mp hfailure
    exact ⟨failure, hmem, (hsilent failure).mp hkept, rfl⟩
  · rintro ⟨failure, hmem, hunmentioned, rfl⟩
    refine List.mem_map.mpr ⟨failure, List.mem_filter.mpr ⟨hmem, ?_⟩, rfl⟩
    exact (hsilent failure).mpr hunmentioned

/-- The errors of a compilation are those of the compiler and those that are added for imports. -/
theorem mem_errors {found : List Diagnostic} {failed : List (String × String)} {d : Diagnostic} :
    d ∈ (found ++ unreported found failed).filter (·.isError) ↔
      (d ∈ found ∧ d.isError = true) ∨ d ∈ unreported found failed := by
  rw [List.filter_append, List.mem_append, List.mem_filter, List.mem_filter]
  refine or_congr_right ⟨And.left, fun hd => ⟨hd, ?_⟩⟩
  obtain ⟨failure, _, _, rfl⟩ := mem_unreported.mp hd
  exact isError_ofImport failure.1 failure.2

/-- A unit that could not be read is named by an error unless it is masked. -/
theorem named_iff_not_masked {found : List Diagnostic} {failed : List (String × String)}
    {failure : String × String} (hmem : failure ∈ failed) :
    (∃ d ∈ (found ++ unreported found failed).filter (·.isError), Occurs failure.1 d.message) ↔
      ¬ Masked found failed failure.1 := by
  constructor
  · rintro ⟨d, hd, hnamed⟩ hmasked
    rcases mem_errors.mp hd with ⟨hfound, herror⟩ | hadded
    · exact hmasked.unnamed d hfound herror hnamed
    · obtain ⟨other, hother, hsilent, rfl⟩ := mem_unreported.mp hadded
      exact hmasked.unadded other hother hsilent hnamed
  · intro hmasked
    by_contra hunnamed
    have hnone : ∀ d ∈ (found ++ unreported found failed).filter (·.isError),
        ¬ Occurs failure.1 d.message := by
      intro d hd hoccurs
      exact hunnamed ⟨d, hd, hoccurs⟩
    apply hmasked
    refine ⟨?_, ?_, ?_⟩
    · by_contra hsilent
      have hadded := mem_unreported.mpr ⟨failure, hmem, hsilent, rfl⟩
      exact hnone _ (mem_errors.mpr (Or.inr hadded)) (occurs_ofImport failure.1 failure.2)
    · intro d hd herror
      exact hnone d (mem_errors.mpr (Or.inl ⟨hd, herror⟩))
    · intro other hother hsilent
      have hadded := mem_unreported.mpr ⟨other, hother, hsilent, rfl⟩
      exact hnone _ (mem_errors.mpr (Or.inr hadded))

/-- The imports that could not be read surface in the outcome of a compilation exactly when none of
them is masked. -/
theorem surfaced_outcome_iff (bridge : Bridge) (output : Value) {found : List Diagnostic}
    {failed : List (String × String)} (hfailed : failed ≠ []) :
    Surfaced (bridge.outcome output found failed) failed ↔
      ∀ failure ∈ failed, ¬ Masked found failed failure.1 := by
  constructor
  · rintro ⟨errors, houtcome, _, hnamed⟩ failure hmem
    rw [← named_iff_not_masked hmem]
    unfold Bridge.outcome at houtcome
    simp only [] at houtcome
    split at houtcome
    · cases hinventory : inventoryOf output bridge.unitName with
      | error | ok =>
        rw [hinventory] at houtcome
        cases houtcome
    · cases houtcome
      exact hnamed failure hmem
  · intro hmasked
    have hnamed : ∀ failure ∈ failed,
        ∃ d ∈ (found ++ unreported found failed).filter (·.isError), Occurs failure.1 d.message :=
      fun failure hmem => (named_iff_not_masked hmem).mpr (hmasked failure hmem)
    refine ⟨(found ++ unreported found failed).filter (·.isError), ?_, ?_, hnamed⟩
    · obtain ⟨failure, hfailure⟩ := List.exists_mem_of_ne_nil failed hfailed
      obtain ⟨d, hd, _⟩ := hnamed failure hfailure
      unfold Bridge.outcome
      have hempty : ((found ++ unreported found failed).filter (·.isError)).isEmpty = false :=
        List.isEmpty_eq_false_iff_exists_mem.mpr ⟨d, hd⟩
      simp only [hempty, Bool.false_eq_true, if_false]
    · intro d hd
      exact (List.mem_filter.mp hd).2

/-- When the compiler has answered with well-formed diagnostics, the imports that could not be read
surface in the errors of the compilation exactly when none of them is masked. -/
theorem unreadable_imports_surface_iff {bridge : Bridge} {source : String} {build : Version.Build}
    {runs output : Value} {world loaded collected : World} {closure : Import.Closure}
    {found : List Diagnostic} (hruns : isRunCount runs = true)
    (hload : (load build bridge.progress).inWorld world = (.ok (), loaded))
    (hcollect : (bridge.resolver.collect bridge.unitName source).inWorld loaded =
      (.ok closure, collected))
    (houtput : collected.toolchain.result.output? = some output)
    (hreported : reported output = .ok found) (hfailed : closure.errors ≠ []) :
    Surfaced ((bridge.compile source build runs).inWorld world).1 closure.errors ↔
      ∀ failure ∈ closure.errors, ¬ Masked found closure.errors failure.1 := by
  obtain ⟨after, hcompile⟩ :=
    Bridge.compile_outcome hruns hload hcollect houtput hreported
  rw [hcompile]
  exact surfaced_outcome_iff bridge output hfailed

def orphan : String :=
  "pragma solidity ^0.8.0;\nimport \"./Missing.sol\";\ncontract Token {}\n"

def emptyTree : Files.Tree := .withWorkingDirectory ["work"]

def answering (output : Value) : World where
  tree := emptyTree
  network := ⟨[]⟩
  toolchain := ⟨["0.8.0"], none, none, .output output⟩
  cache := .empty
  actions := []
  records := []

def tokenOutput (diagnostics : List Value) : Value :=
  .obj [("errors", .arr diagnostics),
    ("contracts", .obj [("contract.sol", .obj [("Token", .obj [("abi", .arr [])])])])]

theorem walk_orphan : Bridge.standard.resolver.walk emptyTree Bridge.standard.unitName orphan =
    ⟨[("contract.sol", orphan)], [("Missing.sol", "Error reading Missing.sol")], [],
      ["Missing.sol"], false⟩ := by
  decide +kernel

theorem reading_missing : Bridge.standard.resolver.reading emptyTree "Missing.sol" =
    .unreadable "Error reading Missing.sol" := by
  decide +kernel

theorem load_answering (output : Value) :
    (load ⟨"v0.8.0+commit.c7dfd78e"⟩ Bridge.standard.progress).inWorld (answering output) =
      (.ok (), { answering output with actions := [.listCompilers] }) := by
  have hrelease : Version.Build.release ⟨"v0.8.0+commit.c7dfd78e"⟩ = "0.8.0" := by decide
  refine inWorld_load_listed _ rfl ?_
  rw [hrelease]
  exact List.mem_singleton.mpr rfl

theorem collect_orphan (world : World) (htree : world.tree = emptyTree) : ∃ records,
    (Bridge.standard.resolver.collect Bridge.standard.unitName orphan).inWorld world =
      (.ok ⟨[("contract.sol", orphan)], [("Missing.sol", "Error reading Missing.sol")]⟩,
        Bridge.standard.resolver.afterReading world ["Missing.sol"] records) := by
  refine Bridge.standard.resolver.inWorld_collect world (htree ▸ walk_orphan) ?_
  intro name hname
  obtain rfl := List.mem_singleton.mp hname
  rw [htree, reading_missing]
  simp

/-- With a compiler that says nothing the missing import surfaces. -/
theorem unreadable_imports_surface_silent :
    Surfaced ((Bridge.standard.compile orphan ⟨"v0.8.0+commit.c7dfd78e"⟩ (.int 0)).inWorld
      (answering (tokenOutput []))).1 [("Missing.sol", "Error reading Missing.sol")] := by
  obtain ⟨records, hcollect⟩ := collect_orphan
    { answering (tokenOutput []) with actions := [.listCompilers] } rfl
  refine (unreadable_imports_surface_iff rfl (load_answering _) hcollect rfl rfl (by simp)).mpr ?_
  intro failure hfailure hmasked
  obtain rfl := List.mem_singleton.mp hfailure
  have hmentioned := List.infix_nil.mp hmasked.mentioned
  simp at hmentioned

/-- An output whose only diagnostic is a warning that mentions the missing import. -/
def warnedOutput : Value :=
  tokenOutput [.obj [("severity", .str "warning"), ("type", .str "Warning"),
    ("message", .str "Unused import of Missing.sol")]]

/-- The missing import does not surface when a warning mentions it: the compilation ends with an
inventory. -/
theorem unreadable_import_masked_by_warning :
    (∃ closure collected,
      (Bridge.standard.resolver.collect Bridge.standard.unitName orphan).inWorld
        (answering warnedOutput) = (.ok closure, collected) ∧
      closure.errors = [("Missing.sol", "Error reading Missing.sol")]) ∧
    ((Bridge.standard.compile orphan ⟨"v0.8.0+commit.c7dfd78e"⟩ (.int 0)).inWorld
      (answering warnedOutput)).1 = .ok [⟨"Token", []⟩] := by
  constructor
  · obtain ⟨records, hcollect⟩ := collect_orphan (answering warnedOutput) rfl
    exact ⟨_, _, hcollect, rfl⟩
  · obtain ⟨records, hcollect⟩ := collect_orphan
      { answering warnedOutput with actions := [.listCompilers] } rfl
    have hruns : isRunCount (.int 0) = true := rfl
    have hreported : reported warnedOutput =
        .ok [⟨"Unused import of Missing.sol", .str "warning", .str "Warning", .null⟩] := rfl
    obtain ⟨after, hcompile⟩ :=
      Bridge.compile_outcome hruns (load_answering warnedOutput) hcollect rfl hreported
    rw [hcompile]
    rfl

end AuditHours.Compiler
