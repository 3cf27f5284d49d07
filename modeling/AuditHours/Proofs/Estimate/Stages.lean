import AuditHours.Estimate.Pipeline
import AuditHours.Proofs.Compiler.Outcome

/-!
What the stages of an estimate do to their surroundings. No stage changes the file tree, and each
does only actions of its own kind: it is quiet for all others.
-/
namespace AuditHours

open Run

variable {p : Action → Bool}

theorem Estimate.quiet_readContract (path : String)
    (hread : p (.readContract (.ofString path)) = false) :
    Quiet p (Estimate.readContract path) := by
  unfold readContract
  refine Quiet.bind (Quiet.act hread) fun _ => Quiet.bind Quiet.get fun world => ?_
  split
  · exact Quiet.pure _
  · exact Quiet.throw _
  · exact Quiet.throw _

/-- A contract that can be read is read. -/
theorem Estimate.inWorld_readContract {path source : String} {world : World}
    (h : world.tree.readText (.ofString path) = .ok source) :
    (readContract path).inWorld world =
      (.ok source,
        { world with actions := world.actions ++ [.readContract (.ofString path)] }) := by
  unfold readContract
  rw [inWorld_bind_ok (inWorld_act _ _), inWorld_bind_ok (inWorld_get _)]
  simp only [h]
  rfl

theorem Weights.quiet_tableFor (config : Option String)
    (hread : ∀ path, p (.readOverlay path) = false) : Quiet p (Weights.tableFor config) := by
  cases config with
  | none => exact Quiet.pure _
  | some path =>
    have hload : Quiet p (loadOverlay path) := by
      unfold loadOverlay
      refine Quiet.bind (Quiet.act (hread _)) fun _ =>
        Quiet.bind Quiet.get fun world => ?_
      split
      · exact Quiet.throw _
      · exact Quiet.bind (Quiet.log _ _ _) fun _ => Quiet.pure _
      · exact Quiet.throw _
    refine Quiet.bind hload fun overlay => Quiet.bind (Quiet.ofResult _ _) fun table => ?_
    exact Quiet.bind (Quiet.log _ _ _) fun _ => Quiet.pure _

theorem Estimate.quiet_declaredConstraint (source : String) :
    Quiet p (Estimate.declaredConstraint source) := by
  unfold declaredConstraint
  split
  · exact Quiet.pure _
  · exact Quiet.throw _

theorem Http.quiet_fetch (client : Http.Client) (url : String) (params : Json.Fields)
    (hget : ∀ request, p (.get request) = false) :
    Quiet p (client.fetch url params) := by
  have hsend : ∀ request, Quiet p (send request) := by
    intro request
    unfold send
    refine Quiet.bind (Quiet.act (hget request)) fun _ => Quiet.bind Quiet.get fun world => ?_
    refine Quiet.bind (Quiet.modify (fun _ => rfl) fun _ => rfl) fun _ => ?_
    split
    · exact Quiet.pure _
    · exact Quiet.throw _
    · exact Quiet.pure _
  unfold Client.fetch
  split
  · exact Quiet.pure _
  · refine Quiet.bind (Quiet.log _ _ _) fun _ => Quiet.bind (hsend _) fun result => ?_
    simp only []
    split
    · exact Quiet.bind (Quiet.log _ _ _) fun _ => Quiet.pure _
    · exact Quiet.pure _

theorem Version.Resolver.quiet_resolve (resolver : Version.Resolver) (constraint : String)
    (hget : ∀ request, p (.get request) = false) : Quiet p (resolver.resolve constraint) := by
  have hreleases : Quiet p resolver.releases := by
    unfold releases
    refine Quiet.bind (Quiet.log _ _ _) fun _ =>
      Quiet.bind (Http.quiet_fetch _ _ _ hget) fun result => ?_
    split
    · exact Quiet.fail _
    · split
      · exact Quiet.pure _
      · exact Quiet.fail _
  have hsearch : Quiet p (resolver.search constraint) := by
    unfold search
    refine Quiet.bind (Quiet.log _ _ _) fun _ =>
      Quiet.bind hreleases fun found => ?_
    simp only []
    split
    · exact Quiet.bind (Quiet.log _ _ _) fun _ => Quiet.pure _
    · split
      · exact Quiet.bind (Quiet.log _ _ _) fun _ => Quiet.pure _
      · exact Quiet.fail _
  have hbuild : ∀ value, Quiet p (buildOf constraint value) := by
    intro value
    cases value with
    | none => exact Quiet.fail _
    | some build => exact Quiet.pure _
  unfold resolve findOrSearch
  refine Quiet.bind Quiet.get fun world => ?_
  split
  · exact Quiet.bind (Quiet.note _) fun _ => hbuild _
  · refine Quiet.bind hsearch fun value => ?_
    exact Quiet.bind (Quiet.modify (fun _ => rfl) fun _ => rfl) fun _ => hbuild _

/-- A constraint whose build is known is resolved without a search. -/
theorem Version.Resolver.inWorld_resolve_known (resolver : Version.Resolver) {constraint : String}
    {build : Version.Build} {world : World}
    (h : world.cache.find? constraint = some (some build)) :
    (resolver.resolve constraint).inWorld world =
      (.ok build, { world with records := world.records ++ [hitRecord constraint] }) := by
  unfold resolve findOrSearch
  rw [inWorld_bind_ok (inWorld_get _)]
  simp only [h]
  rfl

theorem Compiler.quiet_load (build : Version.Build) (progress : Bool)
    (hlist : p .listCompilers = false) (hinstall : ∀ release, p (.install release progress) = false) :
    Quiet p (Compiler.load build progress) := by
  have hrefuse : ∀ cause setback, Quiet p (refuse build cause setback) := by
    intro cause setback
    cases setback with
    | fails text => exact Quiet.bind (Quiet.log _ _ _) fun _ => Quiet.fail _
    | interrupted => exact Quiet.throw _
  unfold load
  refine Quiet.bind (Quiet.act hlist) fun _ => Quiet.bind Quiet.get fun world => ?_
  split
  · exact hrefuse _ _
  · split
    · exact Quiet.pure _
    · refine Quiet.bind (Quiet.log _ _ _) fun _ =>
        Quiet.bind (Quiet.act (hinstall _)) fun _ =>
        Quiet.bind Quiet.get fun installing => ?_
      split
      · exact hrefuse _ _
      · exact Quiet.modify (fun _ => rfl) fun _ => rfl

theorem Compiler.Bridge.quiet_submit (bridge : Compiler.Bridge) (build : Version.Build)
    (runs : Json.Value) (closure : Import.Closure)
    (hcompile : ∀ job, p (.compile build.release job) = false) :
    Quiet p (bridge.submit build runs closure) := by
  have hconclude : ∀ output, Quiet p (bridge.conclude output closure.errors) := by
    intro output
    unfold conclude
    refine Quiet.bind (Quiet.ofResult _ _) fun found =>
      Quiet.bind (Quiet.forM (fun d => Quiet.log _ _ _) _) fun _ => ?_
    have hinventory : Quiet p (do
        let inventory ← Run.ofResult .shape (inventoryOf output bridge.unitName)
        let names := ", ".intercalate inventory.names
        Run.log .debug logger s!"Compiled {inventory.length} contract unit(s): {names}"
        return inventory) := by
      refine Quiet.bind (Quiet.ofResult _ _) fun inventory => ?_
      exact Quiet.bind (Quiet.log _ _ _) fun _ => Quiet.pure _
    simp only []
    split
    · exact Quiet.bind (Quiet.fail _) fun _ => hinventory
    · exact hinventory
  have hcompiled : ∀ job, Quiet p (Compiler.compile build job) := by
    intro job
    unfold Compiler.compile
    refine Quiet.bind (Quiet.act (hcompile job)) fun _ =>
      Quiet.bind Quiet.get fun world => ?_
    split
    · exact Quiet.pure _
    · split
      · exact Quiet.bind (Quiet.log _ _ _) fun _ => Quiet.pure _
      · exact Quiet.pure _
    · exact Quiet.throw _
    · exact Quiet.throw _
    · exact Quiet.throw _
  unfold submit
  refine Quiet.bind (Quiet.ofResult _ _) fun job =>
    Quiet.bind (Quiet.log _ _ _) fun _ => Quiet.bind (hcompiled _) fun output => ?_
  exact hconclude output

theorem Estimate.quiet_rate (weights : Weights Number.Amount) (signals : Source.Signals)
    (functions : List Nat) (countImports : Bool) (mode : Mode) :
    Quiet p (rate weights signals functions countImports mode) :=
  Quiet.bind (Quiet.log _ _ _) fun _ => Quiet.pure _

theorem Import.Resolver.quiet_collect (r : Import.Resolver) (entry source : String)
    (hread : ∀ path, p (.readImport path) = false) : Quiet p (r.collect entry source) := by
  have hnote : ∀ name, Quiet p (r.note name) := by
    intro name
    unfold Import.Resolver.note
    refine Quiet.bind (Quiet.act (hread _)) fun _ => Quiet.bind Quiet.get fun world => ?_
    split
    · exact Quiet.pure _
    · exact Quiet.fail _
    · exact Quiet.log _ _ _
  unfold Import.Resolver.collect
  refine Quiet.bind Quiet.get fun world => Quiet.bind (Quiet.forM hnote _) fun _ => ?_
  exact Quiet.bind (Quiet.log _ _ _) fun _ => Quiet.pure _

theorem Compiler.Bridge.quiet_compile (bridge : Compiler.Bridge) (source : String)
    (build : Version.Build) (runs : Json.Value) (hquiet : ∀ action, p action = false) :
    Quiet p (bridge.compile source build runs) := by
  cases hruns : isRunCount runs with
  | false =>
    intro world
    obtain ⟨failure, hfailed⟩ := bridge.inWorld_compile_of_not_runs source build hruns world
    rw [hfailed]
    exact ⟨rfl, rfl⟩
  | true =>
    rw [bridge.compile_eq source build hruns]
    refine Quiet.bind (quiet_load _ _ (hquiet _) fun _ => hquiet _) fun _ => ?_
    refine Quiet.bind (Import.Resolver.quiet_collect _ _ _ fun _ => hquiet _) fun closure => ?_
    exact bridge.quiet_submit build runs closure fun _ => hquiet _

/-- An estimate leaves the file tree as it is. -/
theorem Estimate.Estimator.tree_estimateFile (e : Estimate.Estimator) (path : String)
    (config : Option String) (options : Estimate.Options) (world : World) :
    ((e.estimateFile path config options).inWorld world).2.tree = world.tree := by
  have hquiet : Quiet (fun _ => false) (e.estimateFile path config options) := by
    unfold estimateFile estimateSource
    refine Quiet.bind (Quiet.log _ _ _) fun _ => Quiet.bind (quiet_readContract path rfl) fun _ => ?_
    refine Quiet.bind (Weights.quiet_tableFor config fun _ => rfl) fun table => ?_
    refine Quiet.bind (Quiet.bind (Quiet.ofResult _ _) fun mode => ?_) fun _ => Quiet.pure _
    refine Quiet.bind (quiet_declaredConstraint _) fun constraint => ?_
    refine Quiet.bind (Version.Resolver.quiet_resolve _ _ fun _ => rfl) fun build => ?_
    refine Quiet.bind (e.bridge.quiet_compile _ build options.runs fun _ => rfl) fun inventory => ?_
    refine Quiet.bind (Quiet.ofResult _ _) fun counts => ?_
    refine Quiet.bind (quiet_rate _ _ _ _ _) fun breakdown => ?_
    exact Quiet.bind (Quiet.log _ _ _) fun _ => Quiet.pure _
  exact (hquiet world).1

end AuditHours
