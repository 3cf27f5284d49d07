import AuditHours.Compiler.Bridge
import AuditHours.Proofs.Stage

/-!
How loading a compiler goes. The installed releases are listed once, and a release that is not
listed is asked for once. All that loading can come to is said here, with what it does outside and
with the toolchain it leaves. It fails if one of these does, and it is interrupted if the user
interrupts one.
-/
namespace AuditHours.Compiler

open Run

variable {build : Version.Build} {progress : Bool} {toolchain after : Toolchain}
  {result : Except Failure Unit} {actions : List Action} {world : World}

def Setback.failure (build : Version.Build) (cause : String → LoadCause) : Setback → Failure
  | .fails text => .noCompiler build.name (cause text)
  | .interrupted => .interrupted

/-- The user interrupts the listing of the releases, or the installing of one that is missing. -/
def Toolchain.Interrupts (toolchain : Toolchain) (release : String) : Prop :=
  toolchain.listError = some .interrupted ∨ toolchain.listError = none ∧
    release ∉ toolchain.installed ∧ toolchain.installError = some .interrupted

/-- From the toolchain to what loading comes to, the toolchain it leaves and what it does outside.
-/
inductive Loading (build : Version.Build) (progress : Bool) (toolchain : Toolchain) :
    Except Failure Unit → Toolchain → List Action → Prop
  | unlisted (setback : Setback) (hlist : toolchain.listError = some setback) :
      Loading build progress toolchain (.error (setback.failure build .listing)) toolchain
        [.listCompilers]
  | listed (hlist : toolchain.listError = none) (hlisted : build.release ∈ toolchain.installed) :
      Loading build progress toolchain (.ok ()) toolchain [.listCompilers]
  | refused (setback : Setback) (hlist : toolchain.listError = none)
      (hmissing : build.release ∉ toolchain.installed)
      (hinstall : toolchain.installError = some setback) :
      Loading build progress toolchain (.error (setback.failure build .installing)) toolchain
        [.listCompilers, .install build.release progress]
  | added (hlist : toolchain.listError = none) (hmissing : build.release ∉ toolchain.installed)
      (hinstall : toolchain.installError = none) :
      Loading build progress toolchain (.ok ())
        { toolchain with installed := toolchain.installed ++ [build.release] }
        [.listCompilers, .install build.release progress]

theorem inWorld_refuse (build : Version.Build) (cause : String → LoadCause) (setback : Setback)
    (world : World) : ∃ records, (refuse build cause setback).inWorld world =
      (.error (setback.failure build cause), { world with records }) := by
  cases setback <;> exact ⟨_, rfl⟩

/-- Loading a compiler changes nothing but the toolchain and the log. -/
theorem inWorld_load_cases (build : Version.Build) (progress : Bool) (world : World) :
    ∃ result toolchain actions records, (load build progress).inWorld world =
        (result, { world with toolchain, records, actions := world.actions ++ actions }) ∧
      Loading build progress world.toolchain result toolchain actions := by
  unfold load
  rw [inWorld_bind_ok (inWorld_act _ _), inWorld_bind_ok (inWorld_get _)]
  cases hlist : world.toolchain.listError with
  | some setback =>
    have hlisting : world.toolchain.list = .error setback := by simp [Toolchain.list, hlist]
    obtain ⟨records, hrefused⟩ := inWorld_refuse build .listing setback
      { world with actions := world.actions ++ [.listCompilers] }
    simp only [hlisting, hrefused]
    exact ⟨_, _, _, _, rfl, .unlisted setback hlist⟩
  | none =>
    have hlisting : world.toolchain.list = .ok world.toolchain.installed := by
      simp [Toolchain.list, hlist]
    simp only [hlisting]
    by_cases hlisted : build.release ∈ world.toolchain.installed
    · rw [if_pos (List.contains_iff_mem.mpr hlisted)]
      exact ⟨_, _, _, _, rfl, .listed hlist hlisted⟩
    · rw [if_neg (by simpa using hlisted), inWorld_bind_ok (inWorld_log _ _ _ _),
        inWorld_bind_ok (inWorld_act _ _), inWorld_bind_ok (inWorld_get _)]
      simp only [List.append_assoc, List.cons_append, List.nil_append]
      cases hinstall : world.toolchain.installError with
      | some setback =>
        have hinstalling : world.toolchain.install build.release = .error setback := by
          simp [Toolchain.install, hinstall]
        obtain ⟨records, hrefused⟩ := inWorld_refuse build .installing setback { world with
          records := world.records ++
            [{ level := .info, logger, message := s!"Installing solc {build.release}..." }]
          actions := world.actions ++ [.listCompilers, .install build.release progress] }
        simp only [hinstalling, hrefused]
        exact ⟨_, _, _, _, rfl, .refused setback hlist hlisted hinstall⟩
      | none =>
        have hinstalling : world.toolchain.install build.release =
            .ok { world.toolchain with
              installed := world.toolchain.installed ++ [build.release] } := by
          simp [Toolchain.install, hinstall]
        simp only [hinstalling]
        exact ⟨_, _, _, _, rfl, .added hlist hlisted hinstall⟩

namespace Loading

/-- Loading a compiler does not tell how it will answer. -/
theorem result_eq (h : Loading build progress toolchain result after actions) :
    after.result = toolchain.result := by
  cases h <;> rfl

/-- Loading a compiler does not run it. -/
theorem not_compile_mem (h : Loading build progress toolchain result after actions)
    (release : String) (job : Json.Value) : .compile release job ∉ actions := by
  cases h <;> simp

/-- A compiler that is loaded is installed. -/
theorem release_mem (h : Loading build progress toolchain (.ok ()) after actions) :
    build.release ∈ after.installed := by
  cases h with
  | listed _ hlisted => exact hlisted
  | added => simp

/-- A compiler that is not loaded leaves the toolchain as it was. There is none for the build unless
the user has interrupted the loading. -/
theorem of_error {failure : Failure}
    (h : Loading build progress toolchain (.error failure) after actions) :
    after = toolchain ∧
      (¬ toolchain.Interrupts build.release ∧ (∃ cause, failure = .noCompiler build.name cause) ∨
        toolchain.Interrupts build.release ∧ failure = .interrupted) := by
  cases h with
  | unlisted setback hlist =>
    refine ⟨rfl, ?_⟩
    cases setback with
    | fails text => exact Or.inl ⟨by simp [Toolchain.Interrupts, hlist], _, rfl⟩
    | interrupted => exact Or.inr ⟨Or.inl hlist, rfl⟩
  | refused setback hlist hmissing hinstall =>
    refine ⟨rfl, ?_⟩
    cases setback with
    | fails text => exact Or.inl ⟨by simp [Toolchain.Interrupts, hlist, hinstall], _, rfl⟩
    | interrupted => exact Or.inr ⟨Or.inr ⟨hlist, hmissing, hinstall⟩, rfl⟩

/-- A compiler that is loaded was not interrupted. -/
theorem not_interrupts (h : Loading build progress toolchain (.ok ()) after actions) :
    ¬ toolchain.Interrupts build.release := by
  cases h with
  | listed hlist hlisted => simp [Toolchain.Interrupts, hlist, hlisted]
  | added hlist hmissing hinstall => simp [Toolchain.Interrupts, hlist, hinstall]

/-- A compiler is loaded exactly if the releases can be listed and its own is listed or can be
installed. -/
theorem ok_iff (h : Loading build progress toolchain result after actions) :
    result = .ok () ↔ toolchain.listError = none ∧
      (build.release ∈ toolchain.installed ∨ toolchain.installError = none) := by
  cases h with
  | unlisted setback hlist => simp [hlist]
  | listed hlist hlisted => simp [hlist, hlisted]
  | refused setback hlist hmissing hinstall => simp [hlist, hmissing, hinstall]
  | added hlist hmissing hinstall => simp [hlist, hinstall]

end Loading

end AuditHours.Compiler
