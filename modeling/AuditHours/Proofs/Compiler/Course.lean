import AuditHours.Proofs.Compiler.Loading
import AuditHours.Proofs.Compiler.Outcome

/-!
The course of a compilation. It stops at the number of optimizer runs before anything is done, at
the loading of the compiler, or at an import whose name no file system takes. If it stops at none of
them it submits what it has gathered. All that a compilation does before it calls the compiler is
said here.
-/
namespace AuditHours.Compiler

open Json Run

variable {build : Version.Build} {progress : Bool} {world loaded : World} {actions : List Action}
  {result : Except Failure Unit}

/-- Loading a compiler in some surroundings, what it comes to, the surroundings it leaves and what
it does outside. -/
structure Loads (build : Version.Build) (progress : Bool) (world : World)
    (result : Except Failure Unit) (loaded : World) (actions : List Action) : Prop where
  run_eq : (load build progress).inWorld world = (result, loaded)
  loading : Loading build progress world.toolchain result loaded.toolchain actions
  tree_eq : loaded.tree = world.tree
  actions_eq : loaded.actions = world.actions ++ actions

theorem exists_loads (build : Version.Build) (progress : Bool) (world : World) :
    ∃ result loaded actions, Loads build progress world result loaded actions := by
  obtain ⟨result, toolchain, actions, records, hload, hloading⟩ :=
    inWorld_load_cases build progress world
  exact ⟨result, _, actions, hload, hloading, rfl, rfl⟩

/-- How a compilation goes before the compiler is called. -/
inductive Bridge.Course (bridge : Bridge) (source : String) (build : Version.Build) (runs : Value)
    (world : World) : Prop
  | uncounted (text : String) (hruns : isRunCount runs = false)
      (hstops : (bridge.compile source build runs).inWorld world = (.error (.argument text), world))
  | unloaded {failure : Failure} {loaded : World} {actions : List Action}
      (hruns : isRunCount runs = true)
      (hload : Loads build bridge.progress world (.error failure) loaded actions)
      (hstops : (bridge.compile source build runs).inWorld world = (.error failure, loaded))
  | refused {loaded : World} {actions : List Action} (failure : Failure)
      (records : List Log.Record) (hruns : isRunCount runs = true)
      (hload : Loads build bridge.progress world (.ok ()) loaded actions)
      (hname : ∃ name ∈ (bridge.resolver.walk world.tree bridge.unitName source).asked,
        bridge.resolver.reading world.tree name = .refused)
      (hstops : (bridge.compile source build runs).inWorld world = (.error failure,
        bridge.resolver.afterReading loaded
          (bridge.resolver.walk world.tree bridge.unitName source).asked records))
  | submitted {loaded : World} {actions : List Action} (records : List Log.Record)
      (hruns : isRunCount runs = true)
      (hload : Loads build bridge.progress world (.ok ()) loaded actions)
      (htaken : ∀ name ∈ (bridge.resolver.walk world.tree bridge.unitName source).asked,
        bridge.resolver.reading world.tree name ≠ .refused)
      (hgoes : (bridge.compile source build runs).inWorld world =
        (bridge.submit build runs
          ⟨(bridge.resolver.walk world.tree bridge.unitName source).sources,
            (bridge.resolver.walk world.tree bridge.unitName source).errors⟩).inWorld
          (bridge.resolver.afterReading loaded
            (bridge.resolver.walk world.tree bridge.unitName source).asked records))

theorem Bridge.course (bridge : Bridge) (source : String) (build : Version.Build) (runs : Value)
    (world : World) : bridge.Course source build runs world := by
  cases hruns : isRunCount runs with
  | false =>
    have hstops : (bridge.compile source build runs).inWorld world = (.error (.argument
        ("optimizer_runs must be a non-negative integer, got " ++ shown runs)), world) := by
      unfold Bridge.compile
      rw [hruns]
      exact inWorld_bind_error rfl
    exact .uncounted _ hruns hstops
  | true =>
    obtain ⟨result, loaded, actions, hload⟩ := exists_loads build bridge.progress world
    cases result with
    | error failure =>
      refine .unloaded hruns hload ?_
      rw [Bridge.compile_eq bridge source build hruns]
      exact inWorld_bind_error hload.run_eq
    | ok _ =>
      obtain ⟨gathered, records, hcollect, htaken, hclosure⟩ :=
        bridge.resolver.inWorld_collect_all loaded
          (rfl : bridge.resolver.walk loaded.tree bridge.unitName source = _)
      rw [hload.tree_eq] at hcollect htaken hclosure
      cases gathered with
      | error failure =>
        refine .refused failure records hruns hload
          (by simpa [Except.isOk, Except.toBool] using htaken) ?_
        rw [Bridge.compile_eq bridge source build hruns, inWorld_bind_ok hload.run_eq]
        exact inWorld_bind_error hcollect
      | ok closure =>
        obtain rfl := hclosure closure rfl
        exact .submitted records hruns hload (htaken.mp rfl)
          (Bridge.inWorld_compile_submit hruns hload.run_eq hcollect)

end AuditHours.Compiler
