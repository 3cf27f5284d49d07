import AuditHours.Proofs.Compiler.Course
import AuditHours.Proofs.Compiler.Staging
import Mathlib.Data.List.Nodup

/-!
Installing compilers over a sequence of calls. A call loads a compiler, or compiles a contract,
which loads one first. Between two calls the surroundings may change in any way as long as no
release is removed. Then no release is installed twice, a release is asked for only where it is
missing, and a compiler runs only where its release is installed.
-/
namespace AuditHours.Compiler

open Json Run

/-- A call that needs the compiler of a build. -/
inductive Call where
  | load (build : Version.Build) (progress : Bool)
  | compile (bridge : Bridge) (source : String) (build : Version.Build) (runs : Value)

namespace Call

def build : Call → Version.Build
  | .load build _ => build
  | .compile _ _ build _ => build

def progress : Call → Bool
  | .load _ progress => progress
  | .compile bridge _ _ _ => bridge.progress

def run : Call → Run Unit
  | .load build progress => Compiler.load build progress
  | .compile bridge source build runs => do
    let _ ← bridge.compile source build runs

end Call

/-- The release that an action installs, if it asks for one and gets it. -/
def Toolchain.grants? (toolchain : Toolchain) : Action → Option String
  | .install release _ => (toolchain.install release).toOption.map fun _ => release
  | _ => none

def Toolchain.granted (toolchain : Toolchain) (actions : List Action) : List String :=
  actions.filterMap toolchain.grants?

/-- A call and the surroundings in which it is made. -/
structure Invocation where
  call : Call
  before : World

namespace Invocation

def result (i : Invocation) : Except Failure Unit := (i.call.run.inWorld i.before).1

def after (i : Invocation) : World := (i.call.run.inWorld i.before).2

def actions (i : Invocation) : List Action := i.after.actions.drop i.before.actions.length

def installs (i : Invocation) : List String := i.before.toolchain.granted i.actions

/-- How an invocation deals with releases. -/
structure Careful (i : Invocation) : Prop where
  asks : ∀ release progress, .install release progress ∈ i.actions →
    release = i.call.build.release ∧ release ∉ i.before.toolchain.installed
  adds : i.after.toolchain.installed = i.before.toolchain.installed ++ i.installs
  loads : ∀ build progress, i.call = .load build progress →
    ¬ i.before.toolchain.Interrupts build.release →
      (i.result = .ok () ∧ build.release ∈ i.after.toolchain.installed) ∨
        ∃ cause, i.result = .error (.noCompiler build.name cause) ∧
          i.after.toolchain.installed = i.before.toolchain.installed
  interrupted : ∀ build progress, i.call = .load build progress →
    i.before.toolchain.Interrupts build.release →
      i.result = .error .interrupted ∧ i.after.toolchain.installed = i.before.toolchain.installed
  returns_iff : ∀ build progress, i.call = .load build progress →
    (i.result = .ok () ↔ i.before.toolchain.listError = none ∧
      (build.release ∈ i.before.toolchain.installed ∨ i.before.toolchain.installError = none))
  /-- A compiler runs only once it is loaded, for the release that was looked for then and that is
  installed by then. -/
  compiles : ∀ earlier release job later, i.actions = earlier ++ .compile release job :: later →
    ((load i.call.build i.call.progress).inWorld i.before).1 = .ok () ∧
      release = i.call.build.release ∧
      release ∈ i.before.toolchain.installed ++ i.before.toolchain.granted earlier

end Invocation

/-- Invocations one after the other, and the surroundings they leave. Between two of them anything
may change, but no release is removed. -/
inductive Session : List Invocation → World → Prop
  | start (world : World) : Session [] world
  | next {earlier : List Invocation} {world : World} {i : Invocation} (h : Session earlier world)
      (hkept : world.toolchain.installed ⊆ i.before.toolchain.installed) :
      Session (earlier ++ [i]) i.after

/-! ### The course of an invocation -/

/-- What is submitted is compiled as one job; nothing else is done outside. -/
theorem Bridge.inWorld_submit_actions (bridge : Bridge) (build : Version.Build) {runs : Value}
    (closure : Import.Closure) (world : World) (hruns : isRunCount runs = true) :
    ∃ result records job, (bridge.submit build runs closure).inWorld world =
      (result, { world with
        records, actions := world.actions ++ [.compile build.release job] }) := by
  obtain ⟨noted, -, hsubmit⟩ := bridge.inWorld_submit_job build closure world hruns
  obtain ⟨result, records, hcompile, -⟩ := inWorld_compile_job build
    (Job.document ⟨ofPairs closure.sources, runs⟩) { world with records := noted }
  rw [hsubmit]
  cases result with
  | error failure => exact ⟨_, _, _, inWorld_bind_error hcompile⟩
  | ok output =>
    rw [inWorld_bind_ok hcompile]
    obtain ⟨ended, hconclude, -⟩ := inWorld_conclude_judged bridge output closure.errors _
    exact ⟨_, _, _, hconclude⟩

namespace Invocation

variable {i : Invocation}

/-- What may follow the loading of a compiler: nothing if it failed, and else reading imports and
running the compiler on its release. -/
def Follow (build : Version.Build) (loading : Except Failure Unit) (actions : List Action) : Prop :=
  ∀ action ∈ actions, loading = .ok () ∧
    ((∃ path, action = .readImport path) ∨ ∃ job, action = .compile build.release job)

/-- How an invocation goes: it does nothing, or it loads the compiler of its build and goes on. -/
inductive Course (i : Invocation) : Prop
  | idle (hafter : i.after = i.before)
  | loaded {result : Except Failure Unit} {toolchain : Toolchain} {actions rest : List Action}
      (hload : ((load i.call.build i.call.progress).inWorld i.before).1 = result)
      (hloading : Loading i.call.build i.call.progress i.before.toolchain result toolchain actions)
      (htoolchain : i.after.toolchain = toolchain)
      (hactions : i.after.actions = i.before.actions ++ (actions ++ rest))
      (hrest : Follow i.call.build result rest)

theorem follow_nil (build : Version.Build) (loading : Except Failure Unit) :
    Follow build loading [] := by
  simp [Follow]

theorem course_load (build : Version.Build) (progress : Bool) (world : World) :
    Course ⟨.load build progress, world⟩ := by
  obtain ⟨result, loaded, actions, hload⟩ := exists_loads build progress world
  have hafter : (⟨.load build progress, world⟩ : Invocation).after = loaded :=
    congrArg Prod.snd hload.run_eq
  refine .loaded (congrArg Prod.fst hload.run_eq) hload.loading (by rw [hafter]) ?_ (follow_nil _ _)
  rw [hafter, hload.actions_eq, List.append_nil]

theorem follow_reads (build : Version.Build) (r : Import.Resolver) (names : List String) :
    Follow build (.ok ()) (names.map fun name => .readImport (r.path name)) := by
  intro action haction
  obtain ⟨name, -, rfl⟩ := List.mem_map.mp haction
  exact ⟨rfl, Or.inl ⟨_, rfl⟩⟩

theorem follow_compile {build : Version.Build} {reads : List Action} (job : Value)
    (h : Follow build (.ok ()) reads) :
    Follow build (.ok ()) (reads ++ [.compile build.release job]) := by
  intro action haction
  rcases List.mem_append.mp haction with hread | hcompile
  · exact h action hread
  · exact ⟨rfl, Or.inr ⟨job, List.mem_singleton.mp hcompile⟩⟩

theorem course_compile (bridge : Bridge) (source : String) (build : Version.Build) (runs : Value)
    (world : World) : Course ⟨.compile bridge source build runs, world⟩ := by
  have hafter : (⟨.compile bridge source build runs, world⟩ : Invocation).after =
      ((bridge.compile source build runs).inWorld world).2 := by
    cases hrun : (bridge.compile source build runs).inWorld world with
    | mk result ended =>
      cases result with
      | ok inventory => exact congrArg Prod.snd (inWorld_bind_ok hrun)
      | error failure => exact congrArg Prod.snd (inWorld_bind_error hrun)
  have hreads := follow_reads build bridge.resolver
    (bridge.resolver.walk world.tree bridge.unitName source).asked
  cases bridge.course source build runs world with
  | uncounted text hruns hstops =>
    exact .idle (hafter.trans (congrArg Prod.snd hstops))
  | unloaded hruns hload hstops =>
    rw [hstops] at hafter
    refine .loaded (congrArg Prod.fst hload.run_eq) hload.loading (by rw [hafter]) ?_
      (follow_nil _ _)
    rw [hafter, hload.actions_eq, List.append_nil]
  | refused failure records hruns hload hname hstops =>
    rw [hstops] at hafter
    refine .loaded (congrArg Prod.fst hload.run_eq) hload.loading (by rw [hafter]; rfl) ?_ hreads
    rw [hafter, ← List.append_assoc, ← hload.actions_eq]
    rfl
  | submitted records hruns hload htaken hgoes =>
    obtain ⟨ended, logged, job, hsubmit⟩ := bridge.inWorld_submit_actions build _ _ hruns
    rw [hgoes, hsubmit] at hafter
    refine .loaded (congrArg Prod.fst hload.run_eq) hload.loading (by rw [hafter]; rfl) ?_
      (follow_compile job hreads)
    rw [hafter, ← List.append_assoc, ← List.append_assoc, ← hload.actions_eq]
    rfl

theorem course (i : Invocation) : i.Course := by
  obtain ⟨call, before⟩ := i
  cases call with
  | load build progress => exact course_load build progress before
  | compile bridge source build runs => exact course_compile bridge source build runs before

theorem actions_eq {actions : List Action} (h : i.after.actions = i.before.actions ++ actions) :
    i.actions = actions := by
  unfold Invocation.actions
  rw [h, List.drop_left]

/-! ### What an invocation installs -/

/-- Actions that ask for no release install none. -/
theorem granted_eq_nil {toolchain : Toolchain} {actions : List Action}
    (h : ∀ release progress, .install release progress ∉ actions) :
    toolchain.granted actions = [] := by
  refine List.filterMap_eq_nil_iff.mpr fun action haction => ?_
  cases action with
  | install release progress => exact absurd haction (h release progress)
  | _ => rfl

/-- Asking for a release installs it unless installing fails. -/
theorem granted_install (toolchain : Toolchain) (release : String) (progress : Bool) :
    toolchain.granted [.listCompilers, .install release progress] =
      if toolchain.installError = none then [release] else [] := by
  have hgrants : toolchain.grants? (.install release progress) =
      if toolchain.installError = none then some release else none := by
    unfold Toolchain.grants? Toolchain.install
    cases toolchain.installError <;> simp [Except.toOption]
  unfold Toolchain.granted
  rw [List.filterMap_cons_none rfl, List.filterMap_cons, hgrants]
  split <;> simp_all

variable {build : Version.Build} {progress : Bool} {toolchain after : Toolchain}
  {outcome : Except Failure Unit} {actions : List Action}

/-- Loading installs nothing, or a release that is missing; what it installs it adds to the
toolchain. -/
theorem granted_of_loading (h : Loading build progress toolchain outcome after actions) :
    after.installed = toolchain.installed ++ toolchain.granted actions ∧
      (toolchain.granted actions = [] ∨
        toolchain.granted actions = [build.release] ∧ build.release ∉ toolchain.installed) := by
  cases h with
  | unlisted | listed =>
    rw [granted_eq_nil (by simp), List.append_nil]
    exact ⟨rfl, Or.inl rfl⟩
  | refused _ _ _ hinstall =>
    rw [granted_install, hinstall, if_neg (by simp), List.append_nil]
    exact ⟨rfl, Or.inl rfl⟩
  | added _ hmissing hinstall =>
    rw [granted_install, if_pos hinstall]
    exact ⟨rfl, Or.inr ⟨rfl, hmissing⟩⟩

/-- Loading asks for no release but that of its build, and only if it is missing. -/
theorem missing_of_loading (h : Loading build progress toolchain outcome after actions)
    {release : String} {shown : Bool} (hasked : .install release shown ∈ actions) :
    release = build.release ∧ release ∉ toolchain.installed := by
  cases h with
  | unlisted | listed => simp at hasked
  | refused _ _ hmissing | added _ hmissing =>
    obtain ⟨rfl, -⟩ : release = build.release ∧ shown = progress := by simpa using hasked
    exact ⟨rfl, hmissing⟩

/-- What follows the loading of a compiler asks for no release. -/
theorem Follow.not_install_mem {rest : List Action} (h : Follow build outcome rest)
    (release : String) (shown : Bool) : .install release shown ∉ rest := by
  intro hmem
  obtain ⟨-, ⟨path, hpath⟩ | ⟨job, hjob⟩⟩ := h _ hmem
  · cases hpath
  · cases hjob

/-- What follows the loading of a compiler installs nothing. -/
theorem Follow.granted_append {rest : List Action} (h : Follow build outcome rest)
    (toolchain : Toolchain) (actions : List Action) :
    toolchain.granted (actions ++ rest) = toolchain.granted actions := by
  have hnone : toolchain.granted rest = [] := granted_eq_nil h.not_install_mem
  unfold Toolchain.granted at *
  rw [List.filterMap_append, hnone, List.append_nil]

/-! ### Every invocation is careful -/

theorem actions_of_idle (h : i.after = i.before) : i.actions = [] :=
  actions_eq (by rw [h, List.append_nil])

/-- An invocation installs nothing, or the missing release of its build; what it installs it adds to
the toolchain. -/
theorem installs_cases (i : Invocation) :
    i.after.toolchain.installed = i.before.toolchain.installed ++ i.installs ∧
      (i.installs = [] ∨ i.installs = [i.call.build.release] ∧
        i.call.build.release ∉ i.before.toolchain.installed) := by
  unfold installs
  cases i.course with
  | idle hafter =>
    rw [actions_of_idle hafter, hafter]
    exact ⟨(List.append_nil _).symm, Or.inl rfl⟩
  | loaded hload hloading htoolchain hactions hrest =>
    rw [actions_eq hactions, hrest.granted_append, htoolchain]
    exact granted_of_loading hloading

/-- An invocation that only loads a compiler ends as the loading does. -/
theorem loading_of_load (hcall : i.call = .load build progress) :
    ∃ actions, Loading build progress i.before.toolchain i.result i.after.toolchain actions := by
  obtain ⟨result, toolchain, actions, records, hload, hloading⟩ :=
    inWorld_load_cases build progress i.before
  have hrun : i.call.run.inWorld i.before =
      (result, { i.before with toolchain, records, actions := i.before.actions ++ actions }) := by
    rw [hcall]
    exact hload
  refine ⟨actions, ?_⟩
  unfold Invocation.result Invocation.after
  rw [hrun]
  exact hloading

/-- What comes before something that the first actions do not hold begins with them. -/
theorem begins_of_not_mem {first rest earlier later : List Action} {action : Action}
    (h : first ++ rest = earlier ++ action :: later) (hfirst : action ∉ first) :
    ∃ between, earlier = first ++ between ∧ rest = between ++ action :: later := by
  rcases List.append_eq_append_iff.mp h with hbegins | ⟨between, rfl, hlater⟩
  · exact hbegins
  · cases between with
    | nil => exact ⟨[], by simp, by simpa using hlater.symm⟩
    | cons other between =>
      obtain ⟨rfl, -⟩ := List.cons.inj hlater
      simp at hfirst

theorem careful (i : Invocation) : i.Careful where
  asks := by
    intro release shown hasked
    cases i.course with
    | idle hafter => simp [actions_of_idle hafter] at hasked
    | loaded hload hloading htoolchain hactions hrest =>
      rw [actions_eq hactions] at hasked
      have hloaded :=
          (List.mem_append.mp hasked).resolve_right (hrest.not_install_mem release shown)
      exact missing_of_loading hloading hloaded
  adds := i.installs_cases.1
  loads := by
    intro build progress hcall hheard
    obtain ⟨actions, hloading⟩ := loading_of_load hcall
    cases hresult : i.result with
    | ok _ =>
      rw [hresult] at hloading
      exact Or.inl ⟨rfl, hloading.release_mem⟩
    | error failure =>
      rw [hresult] at hloading
      obtain ⟨hsame, ⟨-, cause, rfl⟩ | ⟨hinterrupts, -⟩⟩ := hloading.of_error
      · exact Or.inr ⟨cause, rfl, by rw [hsame]⟩
      · exact absurd hinterrupts hheard
  interrupted := by
    intro build progress hcall hinterrupts
    obtain ⟨actions, hloading⟩ := loading_of_load hcall
    cases hresult : i.result with
    | ok _ =>
      rw [hresult] at hloading
      exact absurd hinterrupts hloading.not_interrupts
    | error failure =>
      rw [hresult] at hloading
      obtain ⟨hsame, ⟨hheard, -⟩ | ⟨-, rfl⟩⟩ := hloading.of_error
      · exact absurd hinterrupts hheard
      · exact ⟨rfl, by rw [hsame]⟩
  returns_iff := by
    intro build progress hcall
    obtain ⟨actions, hloading⟩ := loading_of_load hcall
    exact hloading.ok_iff
  compiles := by
    intro earlier release job later hran
    cases i.course with
    | idle hafter => simp [actions_of_idle hafter] at hran
    | loaded hload hloading htoolchain hactions hrest =>
      rw [actions_eq hactions] at hran
      -- the compiler runs behind the loading, so all that loading installs is there by then
      obtain ⟨reads, rfl, rfl⟩ := begins_of_not_mem hran (hloading.not_compile_mem release job)
      obtain ⟨rfl, hkind⟩ := hrest (.compile release job) (by simp)
      obtain rfl : release = i.call.build.release := by simpa using hkind
      have hreads : Follow i.call.build (.ok ()) reads := fun action haction =>
        hrest action (List.mem_append_left _ haction)
      refine ⟨hload, rfl, ?_⟩
      rw [hreads.granted_append, ← (granted_of_loading hloading).1]
      exact hloading.release_mem

end Invocation

/-! ### Sequences of invocations -/

/-- What a session does with releases. -/
structure InstallsOnce (invocations : List Invocation) (world : World) : Prop where
  nodup : (invocations.flatMap Invocation.installs).Nodup
  kept : invocations.flatMap Invocation.installs ⊆ world.toolchain.installed
  careful : ∀ i ∈ invocations, i.Careful

/-- However listing and installing fail, no release is installed twice or asked for where it is
installed, a compiler is loaded only if its release is installed afterwards, and it runs only where
its release is installed. -/
theorem Session.installs_once {invocations : List Invocation} {world : World}
    (h : Session invocations world) : InstallsOnce invocations world := by
  induction h with
  | start world => exact ⟨List.nodup_nil, by simp, by simp⟩
  | @next earlier world i _ hkept ih =>
    obtain ⟨hadds, hinstalls⟩ := i.installs_cases
    have hbefore : earlier.flatMap Invocation.installs ⊆ i.before.toolchain.installed :=
      List.Subset.trans ih.kept hkept
    refine ⟨?_, ?_, ?_⟩
    · rw [List.flatMap_append, List.flatMap_singleton]
      rcases hinstalls with hnone | ⟨hone, hmissing⟩
      · rw [hnone, List.append_nil]
        exact ih.nodup
      · rw [hone]
        exact List.Nodup.append ih.nodup (List.nodup_singleton _)
          (List.disjoint_singleton.mpr fun hmem => hmissing (hbefore hmem))
    · rw [List.flatMap_append, List.flatMap_singleton, hadds]
      exact List.append_subset.mpr ⟨List.subset_append_of_subset_left _ hbefore,
        List.subset_append_right _ _⟩
    · intro other hother
      rcases List.mem_append.mp hother with hearlier | hlast
      · exact ih.careful other hearlier
      · exact other.careful

def offlineWorld : World where
  tree := { workingDirectory := [], entries := [] }
  network := ⟨[]⟩
  toolchain := ⟨[], none, some (.fails "no network"), .output (.obj [])⟩
  cache := .empty
  actions := []
  records := []

def offlineLoad : Invocation := ⟨.load ⟨"v0.8.0+commit.c7dfd78e"⟩ false, offlineWorld⟩

def onlineCompile : Invocation :=
  ⟨.compile Bridge.standard "contract Token {}" ⟨"v0.8.0+commit.c7dfd78e"⟩ (.int 0),
    { offlineLoad.after with
      toolchain := { offlineLoad.after.toolchain with installError := none } }⟩

/-- Another build of the same release is loaded. -/
def secondLoad : Invocation := ⟨.load ⟨"v0.8.0+commit.00000000"⟩ true, onlineCompile.after⟩

/-- Of three invocations for one release the first cannot install it, the second does, and the third
finds it installed. -/
theorem installs_once_offline :
    Session [offlineLoad, onlineCompile, secondLoad] secondLoad.after ∧
      InstallsOnce [offlineLoad, onlineCompile, secondLoad] secondLoad.after ∧
      [offlineLoad, onlineCompile, secondLoad].map Invocation.installs = [[], ["0.8.0"], []] := by
  have hfirst : Session ([] ++ [offlineLoad]) offlineLoad.after :=
    .next (.start offlineWorld) fun _ h => h
  have hsecond : Session ([] ++ [offlineLoad] ++ [onlineCompile]) onlineCompile.after :=
    .next hfirst fun _ h => h
  have hsession : Session [offlineLoad, onlineCompile, secondLoad] secondLoad.after :=
    .next hsecond fun _ h => h
  exact ⟨hsession, hsession.installs_once, by decide +kernel⟩

end AuditHours.Compiler
