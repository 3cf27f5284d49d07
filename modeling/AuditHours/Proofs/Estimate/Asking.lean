import AuditHours.Proofs.Estimate.Stages
import Mathlib.Tactic.ByContra

/-!
Which imports an estimate asks for. Nothing before the imports reads one and nothing after them
does, so a run that gets as far as the imports has asked for all that its contract imports, unless a
name that no file system takes has ended it.
-/
namespace AuditHours.Estimate

open Files Import

/-- Whether an action is the read of an import or comes after all of them. -/
def reachesImports : Action → Bool
  | .readImport _ | .compile _ _ => true
  | _ => false

def readsImport : Action → Bool
  | .readImport _ => true
  | _ => false

/-- A run of the stage in a tree asks for all of the paths once it gets as far as the imports,
unless it is ended by an import that no file system takes. -/
def AsksFor {α : Type} (paths : List Path) (tree : Tree) (stage : Run α) : Prop :=
  ∀ world result after, world.tree = tree →
    (∀ action ∈ world.actions, reachesImports action = false) →
    stage.inWorld world = (result, after) →
    (∃ action ∈ after.actions, reachesImports action = true) →
    result = .error (.file .zeroCharacter) ∨ ∀ path ∈ paths, .readImport path ∈ after.actions

namespace AsksFor

variable {α β : Type} {paths : List Path} {tree : Tree}

/-- A stage that does not get as far as the imports leaves the asking to the next one. -/
theorem after_quiet {stage : Run α} {next : α → Run β} (hstage : Run.Quiet reachesImports stage)
    (hnext : ∀ world value middle, world.tree = tree → stage.inWorld world = (.ok value, middle) →
      AsksFor paths tree (next value)) : AsksFor paths tree (stage >>= next) := by
  intro world result after htree hnone hrun hreached
  rcases Run.bind_cases hrun with ⟨failure, hfailed, _⟩ | ⟨value, middle, hmiddle, hrest⟩
  · obtain ⟨action, hmem, hreaches⟩ := hreached
    have hbefore := hnone action ((hstage.mem_actions hfailed hreaches).mp hmem)
    simp [hreaches] at hbefore
  · have hkept := (hstage world).1
    rw [hmiddle] at hkept
    refine hnext world value middle htree hmiddle middle result after (hkept.trans htree) ?_ hrest
      hreached
    intro action hmem
    by_contra hreaches
    rw [Bool.not_eq_false] at hreaches
    have hbefore := hnone action ((hstage.mem_actions hmiddle hreaches).mp hmem)
    simp [hreaches] at hbefore

/-- A stage that asks is followed by one that does nothing to imports any more. -/
theorem then_quiet {stage : Run α} {next : α → Run β} (hstage : AsksFor paths tree stage)
    (hnext : ∀ value, Run.Quiet reachesImports (next value)) :
    AsksFor paths tree (stage >>= next) := by
  intro world result after htree hnone hrun hreached
  rcases Run.bind_cases hrun with ⟨failure, hfailed, rfl⟩ | ⟨value, middle, hmiddle, hrest⟩
  · rcases hstage world _ after htree hnone hfailed hreached with hzero | hasked
    · cases hzero
      exact Or.inl rfl
    · exact Or.inr hasked
  · obtain ⟨action, hmem, hreaches⟩ := hreached
    have hbefore := ((hnext value).mem_actions hrest hreaches).mp hmem
    rcases hstage world _ middle htree hnone hmiddle ⟨action, hbefore, hreaches⟩ with hzero | hasked
    · simp at hzero
    · right
      intro path hpath
      exact ((hnext value).mem_actions hrest rfl).mpr (hasked path hpath)

end AsksFor

/-- The paths that the imports of a contract are read from, but for imports of the contract itself.
-/
def importPaths (bridge : Compiler.Bridge) (source : String) : List Path :=
  ((Walk.imported bridge.unitName source).filter (· ≠ bridge.unitName)).map bridge.resolver.path

theorem asksFor_compile (bridge : Compiler.Bridge) (tree : Tree) (source : String)
    (build : Version.Build) (runs : Json.Value) :
    AsksFor (importPaths bridge source) tree (bridge.compile source build runs) := by
  by_cases hruns : Compiler.isRunCount runs = true
  · rw [Compiler.Bridge.compile_eq bridge source build hruns]
    refine AsksFor.after_quiet (Compiler.quiet_load _ _ rfl fun _ => rfl) ?_
    intro _ _ _ _ _ world result after htree hnone hrun hreached
    by_cases hrefused : ∃ name ∈ (bridge.resolver.walk world.tree bridge.unitName source).asked,
        bridge.resolver.reading world.tree name = .refused
    · obtain ⟨name, hname, hread⟩ := hrefused
      obtain ⟨ended, hcollect⟩ := bridge.resolver.inWorld_collect_refused world hname hread
      rw [Run.inWorld_bind_error hcollect] at hrun
      cases hrun
      exact Or.inl rfl
    · right
      have htaken : ∀ name ∈ (bridge.resolver.walk world.tree bridge.unitName source).asked,
          bridge.resolver.reading world.tree name ≠ .refused :=
        fun name hname hread => hrefused ⟨name, hname, hread⟩
      obtain ⟨records, hcollect⟩ := bridge.resolver.inWorld_collect world rfl htaken
      rw [Run.inWorld_bind_ok hcollect] at hrun
      intro path hpath
      have hquiet := fun closure =>
        @Compiler.Bridge.quiet_submit readsImport bridge build runs closure fun _ => rfl
      refine ((hquiet _).mem_actions hrun rfl).mpr (List.mem_append_right _ ?_)
      obtain ⟨name, hname, rfl⟩ := List.mem_map.mp hpath
      obtain ⟨himported, hother⟩ := List.mem_filter.mp hname
      have hasked := (bridge.resolver.mem_asked_walk world.tree himported
        (of_decide_eq_true hother)).resolve_right hrefused
      exact List.mem_map_of_mem hasked
  · intro world result after htree hnone hrun hreached
    rw [Bool.not_eq_true] at hruns
    obtain ⟨failure, hfailed⟩ := bridge.inWorld_compile_of_not_runs source build hruns world
    rw [hfailed] at hrun
    cases hrun
    obtain ⟨action, hmem, hreaches⟩ := hreached
    simp [hnone action hmem] at hreaches

theorem asksFor_estimateSource (e : Estimator) (tree : Tree) (source : String)
    (table : Weights.Table) (options : Options) :
    AsksFor (importPaths e.bridge source) tree (e.estimateSource source table options) := by
  unfold Estimator.estimateSource
  refine AsksFor.after_quiet (Run.Quiet.ofResult _ _) fun _ mode _ _ _ => ?_
  refine AsksFor.after_quiet (quiet_declaredConstraint source) fun _ constraint _ _ _ => ?_
  refine AsksFor.after_quiet (Version.Resolver.quiet_resolve _ _ fun _ => rfl)
    fun _ build _ _ _ => ?_
  refine AsksFor.then_quiet (asksFor_compile _ _ _ _ _) fun inventory => ?_
  refine Run.Quiet.bind (Run.Quiet.ofResult _ _) fun counts => ?_
  refine Run.Quiet.bind (quiet_rate _ _ _ _ _) fun breakdown => ?_
  exact Run.Quiet.bind (Run.Quiet.log _ _ _) fun _ => Run.Quiet.pure _

/-- An estimate of a file asks for all that its text imports. -/
theorem asksFor_estimateFile (e : Estimator) {tree : Tree} {path source : String}
    (config : Option String) (options : Options)
    (hsource : tree.readText (.ofString path) = .ok source) :
    AsksFor (importPaths e.bridge source) tree (e.estimateFile path config options) := by
  unfold Estimator.estimateFile
  refine AsksFor.after_quiet (Run.Quiet.log _ _ _) fun _ _ _ _ _ => ?_
  refine AsksFor.after_quiet (quiet_readContract path rfl) fun world text middle htree hread => ?_
  have htext : text = source := by
    rw [← htree] at hsource
    rw [inWorld_readContract hsource] at hread
    cases hread
    rfl
  subst htext
  refine AsksFor.after_quiet (Weights.quiet_tableFor config fun _ => rfl) fun _ table _ _ _ => ?_
  refine AsksFor.then_quiet (asksFor_estimateSource e tree text table options) fun estimate => ?_
  exact Run.Quiet.pure _

/-- An estimate whose version is known comes to its compilation, and fails if that fails. -/
theorem estimateFile_of_compile {e : Estimator} (options : Options) {world : World}
    {path source constraint : String} {build : Version.Build} {mode : Mode}
    (hmode : e.chosenMode options.mode = .ok mode)
    (hsource : world.tree.readText (.ofString path) = .ok source)
    (hconstraint : Source.constraint? source = some constraint)
    (hknown : world.cache.find? constraint = some (some build)) :
    ∃ resolved : World, resolved.tree = world.tree ∧ resolved.toolchain = world.toolchain ∧
      resolved.actions = world.actions ++ [.readContract (.ofString path)] ∧
      ∀ failure after,
        (e.bridge.compile source build options.runs).inWorld resolved = (.error failure, after) →
        (e.estimateFile path none options).inWorld world = (.error failure, after) := by
  refine ⟨{ world with
    actions := world.actions ++ [.readContract (.ofString path)]
    records := world.records ++
      [{ level := .info, logger := estimatorLogger
         message := s!"Estimating audit time for {path}" }] ++ [Version.hitRecord constraint] },
    rfl, rfl, rfl, ?_⟩
  intro failure after hcompile
  have hmode' : Run.ofResult Failure.argument (e.chosenMode options.mode) = pure mode := by
    rw [hmode]
    rfl
  have hdeclared : declaredConstraint source = pure constraint := by
    simp [declaredConstraint, hconstraint]
  unfold Estimator.estimateFile
  refine Eq.trans (Run.inWorld_bind_ok (Run.inWorld_log _ _ _ _)) ?_
  refine Eq.trans (Run.inWorld_bind_ok (inWorld_readContract hsource)) ?_
  refine Eq.trans (Run.inWorld_bind_ok (Run.inWorld_pure _ _)) ?_
  refine Run.inWorld_bind_error ?_
  unfold Estimator.estimateSource
  rw [hmode', hdeclared]
  refine Eq.trans (Run.inWorld_bind_ok (Run.inWorld_pure _ _)) ?_
  refine Eq.trans (Run.inWorld_bind_ok (Run.inWorld_pure _ _)) ?_
  refine Eq.trans (Run.inWorld_bind_ok (e.resolver.inWorld_resolve_known hknown)) ?_
  exact Run.inWorld_bind_error hcompile

/-- An estimate whose version is known, whose compiler is listed and whose compilation fails once
the imports are gathered has asked for exactly the units of its walk. -/
theorem estimateFile_of_submit {e : Estimator} {options : Options} {world : World}
    {path source constraint : String} {build : Version.Build} {mode : Mode} {w : Walk}
    {failure : Failure} {P : World → Prop} (hmode : e.chosenMode options.mode = .ok mode)
    (hruns : Compiler.isRunCount options.runs = true)
    (hsource : world.tree.readText (.ofString path) = .ok source)
    (hconstraint : Source.constraint? source = some constraint)
    (hknown : world.cache.find? constraint = some (some build))
    (hlist : world.toolchain.listError = none)
    (hlisted : build.release ∈ world.toolchain.installed) (hnone : world.actions = [])
    (hw : e.bridge.resolver.walk world.tree e.bridge.unitName source = w)
    (htaken : ∀ name ∈ w.asked, e.bridge.resolver.reading world.tree name ≠ .refused)
    (hsubmit : ∀ gathered : World, gathered.toolchain = world.toolchain → ∃ after,
      (e.bridge.submit build options.runs ⟨w.sources, w.errors⟩).inWorld gathered =
        (.error failure, after) ∧ P after) :
    ∃ after, (e.estimateFile path none options).inWorld world = (.error failure, after) ∧
      P after ∧ ∀ asked, .readImport asked ∈ after.actions ↔
        ∃ name ∈ w.asked, e.bridge.resolver.path name = asked := by
  obtain ⟨resolved, htree, htoolchain, hactions, hcompile⟩ :=
    estimateFile_of_compile options hmode hsource hconstraint hknown
  rw [← htoolchain] at hlist hlisted
  have hload := Compiler.inWorld_load_listed e.bridge.progress hlist hlisted
  rw [← htree] at hw htaken
  obtain ⟨records, hcollect⟩ := e.bridge.resolver.inWorld_collect
    { resolved with actions := resolved.actions ++ [.listCompilers] } hw htaken
  obtain ⟨after, hafter, hP⟩ := hsubmit (e.bridge.resolver.afterReading
    { resolved with actions := resolved.actions ++ [.listCompilers] } w.asked records) htoolchain
  refine ⟨after, hcompile failure after ?_, hP, ?_⟩
  · rw [Compiler.Bridge.inWorld_compile_submit hruns hload hcollect]
    exact hafter
  · intro asked
    have hquiet := @Compiler.Bridge.quiet_submit readsImport e.bridge build options.runs
      ⟨w.sources, w.errors⟩ fun _ => rfl
    rw [hquiet.mem_actions hafter rfl]
    simp [Resolver.afterReading, hactions, hnone]

end AuditHours.Estimate
