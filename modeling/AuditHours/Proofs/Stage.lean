import AuditHours.Proofs.Basic
import AuditHours.World

/-!
Stages of a run and how they follow each other. A stage that succeeds leaves its surroundings to the
next one, and a stage that fails ends the run where it stands. A stage is quiet for some actions
when it leaves the file tree as it is and does none of these actions. It is unheard at a level when
it writes no record of that level.
-/
namespace AuditHours.Run

variable {α β ε : Type}

@[simp]
theorem inWorld_pure (value : α) (world : World) :
    (pure value : Run α).inWorld world = (.ok value, world) := rfl

@[simp]
theorem inWorld_get (world : World) : (get : Run World).inWorld world = (.ok world, world) := rfl

@[simp]
theorem inWorld_modify (f : World → World) (world : World) :
    (modify f : Run Unit).inWorld world = (.ok (), f world) := rfl

@[simp]
theorem inWorld_act (action : Action) (world : World) :
    (act action).inWorld world =
      (.ok (), { world with actions := world.actions ++ [action] }) := rfl

@[simp]
theorem inWorld_log (level : Log.Level) (logger message : String) (world : World) :
    (log level logger message).inWorld world =
      (.ok (), { world with records := world.records ++ [{ level, logger, message }] }) := rfl

@[simp]
theorem inWorld_ofResult (failure : ε → Failure) (result : Except ε α) (world : World) :
    (ofResult failure result).inWorld world = (result.mapError failure, world) := by
  cases result <;> rfl

@[simp]
theorem inWorld_bind (stage : Run α) (next : α → Run β) (world : World) :
    (stage >>= next).inWorld world = match stage.inWorld world with
      | (.ok value, middle) => (next value).inWorld middle
      | (.error failure, middle) => (.error failure, middle) := by
  unfold inWorld ExceptT.run
  simp only [bind, ExceptT.bind, ExceptT.mk, StateT.bind, ExceptT.bindCont]
  cases stage world with
  | mk result middle => cases result <;> rfl

/-- A stage that succeeds is followed by the next one. -/
theorem inWorld_bind_ok {stage : Run α} {next : α → Run β} {world middle : World} {value : α}
    (h : stage.inWorld world = (.ok value, middle)) :
    (stage >>= next).inWorld world = (next value).inWorld middle := by
  rw [inWorld_bind, h]

/-- A stage that fails ends the run. -/
theorem inWorld_bind_error {stage : Run α} {next : α → Run β} {world after : World}
    {failure : Failure} (h : stage.inWorld world = (.error failure, after)) :
    (stage >>= next).inWorld world = (.error failure, after) := by
  rw [inWorld_bind, h]

/-- A run of two stages is a run of the first that fails, or one that the second goes on from. -/
theorem bind_cases {stage : Run α} {next : α → Run β} {world after : World}
    {result : Except Failure β} (h : (stage >>= next).inWorld world = (result, after)) :
    (∃ failure, stage.inWorld world = (.error failure, after) ∧ result = .error failure) ∨
      ∃ value middle, stage.inWorld world = (.ok value, middle) ∧
        (next value).inWorld middle = (result, after) := by
  rw [inWorld_bind] at h
  split at h
  · next value middle hstage => exact Or.inr ⟨value, middle, hstage, h⟩
  · next failure middle hstage =>
    cases h
    exact Or.inl ⟨failure, hstage, rfl⟩

/-- Two stages return only if both of them do. -/
theorem returned_of_bind {stage : Run α} {next : α → Run β} {world after : World} {value : β}
    (h : (stage >>= next).inWorld world = (.ok value, after)) :
    ∃ found middle, stage.inWorld world = (.ok found, middle) ∧
      (next found).inWorld middle = (.ok value, after) := by
  obtain ⟨_, _, hfailed⟩ | hfound := bind_cases h
  · exact nomatch hfailed
  · exact hfound

theorem exists_of_run_isOk {stage : Run α} {world : World}
    (h : (stage.inWorld world).1.isOk = true) :
    ∃ value after, stage.inWorld world = (.ok value, after) := by
  obtain ⟨value, hvalue⟩ := exists_of_isOk h
  exact ⟨value, _, Prod.ext hvalue rfl⟩

/-- A stage is quiet for some actions when it does none of them and leaves the file tree alone. -/
def Quiet (p : Action → Bool) (stage : Run α) : Prop :=
  ∀ world, (stage.inWorld world).2.tree = world.tree ∧
    (stage.inWorld world).2.actions.filter p = world.actions.filter p

namespace Quiet

variable {p : Action → Bool}

theorem pure (value : α) : Quiet p (pure value : Run α) := fun _ => ⟨rfl, rfl⟩

theorem fail (failure : Failure) : Quiet p (fail failure : Run α) := fun _ => ⟨rfl, rfl⟩

theorem throw (failure : Failure) : Quiet p (throw failure : Run α) := fun _ => ⟨rfl, rfl⟩

theorem get : Quiet p (get : Run World) := fun _ => ⟨rfl, rfl⟩

theorem note (record : Log.Record) : Quiet p (note record) := fun _ => ⟨rfl, rfl⟩

theorem log (level : Log.Level) (logger message : String) : Quiet p (log level logger message) :=
  fun _ => ⟨rfl, rfl⟩

theorem act {action : Action} (h : p action = false) : Quiet p (act action) := by
  intro world
  simp [h]

theorem modify {f : World → World} (htree : ∀ world, (f world).tree = world.tree)
    (hactions : ∀ world, (f world).actions = world.actions) :
    Quiet p (modify f : Run Unit) := by
  intro world
  simp [htree, hactions]

theorem ofResult (failure : ε → Failure) (result : Except ε α) :
    Quiet p (ofResult failure result) := by
  intro world
  simp

theorem bind {stage : Run α} {next : α → Run β} (hstage : Quiet p stage)
    (hnext : ∀ value, Quiet p (next value)) : Quiet p (stage >>= next) := by
  intro world
  rw [inWorld_bind]
  split
  · next value middle hmiddle =>
    have hfirst := hstage world
    rw [hmiddle] at hfirst
    have hsecond := hnext value middle
    exact ⟨hsecond.1.trans hfirst.1, hsecond.2.trans hfirst.2⟩
  · next failure middle hmiddle =>
    have hfirst := hstage world
    rw [hmiddle] at hfirst
    exact hfirst

theorem forM {stage : ε → Run Unit} (hstage : ∀ item, Quiet p (stage item)) (items : List ε) :
    Quiet p (items.forM stage) := by
  induction items with
  | nil => exact pure ()
  | cons item rest ih =>
    rw [List.forM_eq_forM, List.forM_cons]
    exact bind (hstage item) fun _ => ih

/-- A quiet stage leaves exactly the actions of its kind that were there before. -/
theorem mem_actions {stage : Run α} (h : Quiet p stage) {world after : World}
    {result : Except Failure α} (hrun : stage.inWorld world = (result, after)) {action : Action}
    (hp : p action = true) : action ∈ after.actions ↔ action ∈ world.actions := by
  have hfilter := (h world).2
  rw [hrun] at hfilter
  have hmem : action ∈ after.actions.filter p ↔ action ∈ world.actions.filter p := by rw [hfilter]
  simpa [hp] using hmem

end Quiet

def Unheard (level : Log.Level) (stage : Run α) : Prop :=
  ∀ world, (stage.inWorld world).2.records.filter (·.level == level) =
    world.records.filter (·.level == level)

namespace Unheard

variable {level : Log.Level}

theorem pure (value : α) : Unheard level (pure value : Run α) := fun _ => rfl

theorem fail (failure : Failure) : Unheard level (fail failure : Run α) := fun _ => rfl

theorem throw (failure : Failure) : Unheard level (throw failure : Run α) := fun _ => rfl

theorem get : Unheard level (get : Run World) := fun _ => rfl

theorem act (action : Action) : Unheard level (act action) := fun _ => rfl

theorem modify {f : World → World} (hrecords : ∀ world, (f world).records = world.records) :
    Unheard level (modify f : Run Unit) := by
  intro world
  simp [hrecords]

theorem log {other : Log.Level} (logger message : String) (h : other ≠ level) :
    Unheard level (log other logger message) := by
  intro world
  simp [h]

theorem bind {stage : Run α} {next : α → Run β} (hstage : Unheard level stage)
    (hnext : ∀ value, Unheard level (next value)) : Unheard level (stage >>= next) := by
  intro world
  have hfirst := hstage world
  rw [inWorld_bind]
  split
  · next value middle hmiddle =>
    rw [hmiddle] at hfirst
    exact (hnext value middle).trans hfirst
  · next failure middle hmiddle =>
    rw [hmiddle] at hfirst
    exact hfirst

theorem forM {stage : ε → Run Unit} (hstage : ∀ item, Unheard level (stage item))
    (items : List ε) : Unheard level (items.forM stage) := by
  induction items with
  | nil => exact pure ()
  | cons item rest ih =>
    rw [List.forM_eq_forM, List.forM_cons]
    exact bind (hstage item) fun _ => ih

end Unheard

def Returns (rule : α → Prop) (stage : Run α) : Prop :=
  ∀ world value after, stage.inWorld world = (.ok value, after) → rule value

namespace Returns

variable {rule : α → Prop} {next : α → Run β} {stage : Run α} {kept : β → Prop}

theorem pure {value : α} (h : rule value) : Returns rule (pure value : Run α) := by
  intro world found after hrun
  cases hrun
  exact h

theorem ofResult {failure : ε → Failure} {result : Except ε α}
    (h : ∀ value, result = .ok value → rule value) : Returns rule (ofResult failure result) := by
  intro world value after hrun
  rw [inWorld_ofResult] at hrun
  cases result with
  | error e => cases hrun
  | ok found =>
    cases hrun
    exact h value rfl

theorem bind (hstage : Returns rule stage)
    (hnext : ∀ value, rule value → Returns kept (next value)) :
    Returns kept (stage >>= next) := by
  intro world value after hrun
  obtain ⟨found, middle, hfound, hrest⟩ := returned_of_bind hrun
  exact hnext found (hstage world found middle hfound) middle value after hrest

/-- What the first of two stages returns need not matter. -/
theorem after (hnext : ∀ value, Returns kept (next value)) : Returns kept (stage >>= next) :=
  bind (fun _ _ _ _ => trivial) fun value (_ : True) => hnext value

end Returns

end AuditHours.Run
