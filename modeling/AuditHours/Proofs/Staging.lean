import AuditHours.Proofs.Stage

/-!
Runs in stages. A stage has actions of its own and succeeds or not. A run goes through stages if it
does the actions of each of them in turn, up to those of the first that fails, and returns exactly
if none fails. So an action is done only if every stage before its own has succeeded.
-/
namespace AuditHours.Run

/-- The actions of a part of a run, and whether the run goes on behind it. -/
structure Stage where
  actions : List Action
  succeeds : Bool

/-- The actions of stages up to the first that fails. -/
def performed : List Stage → List Action
  | [] => []
  | stage :: rest => stage.actions ++ if stage.succeeds then performed rest else []

def AllSucceed (stages : List Stage) : Prop := ∀ stage ∈ stages, stage.succeeds = true

variable {α β ε : Type} {stages later : List Stage}

theorem performed_append_of_succeed (h : AllSucceed stages) :
    performed (stages ++ later) = performed stages ++ performed later := by
  induction stages with
  | nil => rfl
  | cons stage rest ih =>
    have hstage : stage.succeeds = true := h stage (List.mem_cons_self ..)
    have hrest : AllSucceed rest := fun other hother => h other (List.mem_cons_of_mem _ hother)
    simp [performed, hstage, ih hrest]

theorem performed_append_of_fail (h : ¬ AllSucceed stages) :
    performed (stages ++ later) = performed stages := by
  induction stages with
  | nil => exact absurd (fun stage hstage => by simp at hstage) h
  | cons stage rest ih =>
    by_cases hstage : stage.succeeds = true
    · have hrest : ¬ AllSucceed rest := by
        intro hrest
        refine h fun other hother => ?_
        rcases List.mem_cons.mp hother with rfl | hmem
        · exact hstage
        · exact hrest other hmem
      simp [performed, hstage, ih hrest]
    · simp [performed, hstage]

@[simp]
theorem allSucceed_append : AllSucceed (stages ++ later) ↔ AllSucceed stages ∧ AllSucceed later :=
  List.forall_mem_append

theorem performed_of_succeed (h : AllSucceed stages) :
    performed stages = stages.flatMap Stage.actions := by
  induction stages with
  | nil => rfl
  | cons stage rest ih =>
    have hstage : stage.succeeds = true := h stage (List.mem_cons_self ..)
    have hrest : AllSucceed rest := fun other hother => h other (List.mem_cons_of_mem _ hother)
    simp [performed, hstage, ih hrest]

/-- What is done is the beginning of all that the stages would do. -/
theorem performed_begins (stages : List Stage) :
    performed stages <+: stages.flatMap Stage.actions := by
  induction stages with
  | nil => exact List.prefix_rfl
  | cons stage rest ih =>
    by_cases hstage : stage.succeeds = true
    · simpa [performed, hstage] using ih
    · simp [performed, hstage]

/-- A run goes through stages: it does their actions in order, nothing behind a stage that fails,
and it returns exactly if all of them succeed. What it returns fulfils a condition. -/
structure GoesThrough (run : Run α) (world : World) (stages : List Stage)
    (returned : α → Prop) : Prop where
  actions : (run.inWorld world).2.actions = world.actions ++ performed stages
  returns_iff : (∃ value, (run.inWorld world).1 = .ok value) ↔ AllSucceed stages
  returned : ∀ value, (run.inWorld world).1 = .ok value → returned value

namespace GoesThrough

variable {stage : Run α} {next : α → Run β} {world after : World} {result : Except Failure α}
  {found : α → Prop} {returned : β → Prop}

/-- A run with a single stage. -/
theorem single {s : Stage} (h : stage.inWorld world = (result, after))
    (hactions : after.actions = world.actions ++ s.actions) (hsucceeds : result.isOk = s.succeeds)
    (hfound : ∀ value, result = .ok value → found value) :
    GoesThrough stage world [s] found := by
  have hreturns : (∃ value, result = .ok value) ↔ result.isOk = true := by
    cases result <;> simp [Except.isOk, Except.toBool]
  refine ⟨?_, ?_, ?_⟩
  · simp [h, hactions, performed]
  · simp [h, hreturns, hsucceeds, AllSucceed]
  · simpa [h] using hfound

/-- A run that returns and does nothing outside. -/
theorem silent {value : α} (h : stage.inWorld world = (.ok value, after))
    (hactions : after.actions = world.actions) (hfound : found value) :
    GoesThrough stage world [] found := by
  refine ⟨?_, ?_, ?_⟩
  · simp [h, hactions, performed]
  · simp [h, AllSucceed]
  · intro other hother
    rw [h] at hother
    rwa [← Except.ok.inj hother]

/-- A run goes on behind its first stages with what they have found. -/
theorem bind (h : GoesThrough stage world stages found)
    (hnext : ∀ value middle, stage.inWorld world = (.ok value, middle) → found value →
      GoesThrough (next value) middle later returned) :
    GoesThrough (stage >>= next) world (stages ++ later) returned := by
  cases hrun : stage.inWorld world with
  | mk result middle =>
    have hactions := h.actions
    have hreturns := h.returns_iff
    have hfound := h.returned
    rw [hrun] at hactions hreturns hfound
    cases result with
    | error failure =>
      have hfail : ¬ AllSucceed stages := by
        intro hall
        obtain ⟨value, hvalue⟩ := hreturns.mpr hall
        simp at hvalue
      have hended : (stage >>= next).inWorld world = (.error failure, middle) :=
        inWorld_bind_error hrun
      refine ⟨?_, ?_, ?_⟩
      · rw [hended, performed_append_of_fail hfail]
        exact hactions
      · simp [hended, hfail]
      · simp [hended]
    | ok value =>
      have hall : AllSucceed stages := hreturns.mp ⟨value, rfl⟩
      obtain ⟨hlater, hlaterReturns, hreturned⟩ := hnext value middle hrun (hfound value rfl)
      have hgoesOn : (stage >>= next).inWorld world = (next value).inWorld middle :=
        inWorld_bind_ok hrun
      rw [← hgoesOn] at hlater hlaterReturns hreturned
      refine ⟨?_, ?_, hreturned⟩
      · rw [hlater, hactions, performed_append_of_succeed hall, List.append_assoc]
      · rw [hlaterReturns, allSucceed_append]
        exact (and_iff_right hall).symm

/-- A run begins with a stage whose effect is known. -/
theorem cons {s : Stage} (h : stage.inWorld world = (result, after))
    (hactions : after.actions = world.actions ++ s.actions) (hsucceeds : result.isOk = s.succeeds)
    (hnext : ∀ value, result = .ok value → GoesThrough (next value) after later returned) :
    GoesThrough (stage >>= next) world (s :: later) returned := by
  have hstage : GoesThrough stage world [s] fun value => result = .ok value :=
    single h hactions hsucceeds fun _ hvalue => hvalue
  refine hstage.bind fun value middle hmiddle hvalue => ?_
  rw [h, Prod.mk.injEq] at hmiddle
  rw [← hmiddle.2]
  exact hnext value hvalue

/-- A run begins with something that returns and does nothing outside. -/
theorem skip {value : α} (h : stage.inWorld world = (.ok value, after))
    (hactions : after.actions = world.actions)
    (hnext : GoesThrough (next value) after stages returned) :
    GoesThrough (stage >>= next) world stages returned := by
  have hsame : (stage >>= next).inWorld world = (next value).inWorld after := inWorld_bind_ok h
  refine ⟨?_, ?_, ?_⟩
  · rw [hsame, hnext.actions, hactions]
  · rw [hsame, hnext.returns_iff]
  · rw [hsame]
    exact hnext.returned

theorem imp {weaker : α → Prop} (h : GoesThrough stage world stages found)
    (hweaker : ∀ value, found value → weaker value) : GoesThrough stage world stages weaker :=
  ⟨h.actions, h.returns_iff, fun value hvalue => hweaker value (h.returned value hvalue)⟩

/-- A check that holds is a stage without actions. -/
theorem of_check (h : GoesThrough stage world stages found) :
    GoesThrough stage world (⟨[], true⟩ :: stages) found := by
  refine ⟨?_, ?_, h.returned⟩
  · simpa [performed] using h.actions
  · rw [h.returns_iff]
    simp [AllSucceed]

/-- A check that fails leaves nothing to be done. -/
theorem of_failed_check {failure : Failure}
    (h : stage.inWorld world = (.error failure, world)) :
    GoesThrough stage world (⟨[], false⟩ :: stages) found := by
  refine ⟨?_, ?_, ?_⟩
  · simp [h, performed]
  · simp [h, AllSucceed]
  · simp [h]

end GoesThrough

end AuditHours.Run
