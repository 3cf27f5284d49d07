import AuditHours.Estimate.Score
import AuditHours.Proofs.Number.Amounts
import AuditHours.Proofs.Weights.Exact

/-!
When a score is a number. Whatever overlays are merged into the built-in table, the base hours and
the hours of an upgradeable contract are at least zero. So are the complexity hours and the total,
unless an infinite weight is multiplied by a count of zero: an overlay may make a weight infinite.
-/
namespace AuditHours.Estimate

open Number Source Weights

/-- A weight that is infinite is multiplied by a count of zero: that of the functions beyond the
free ones in a unit, that of the calls, or that of the imports if they are charged one by one. -/
def InfiniteMeetsZero (w : Weights Amount) (s : Signals) (functions : List Nat)
    (countImports : Bool) : Prop :=
  functions ≠ [] ∧
    ((w.complexityFactors.functionTime.IsInfinite ∧ ∃ n ∈ functions, surplus w n = 0) ∨
      (w.complexityFactors.externalCallTime.IsInfinite ∧ s.externalCalls = 0) ∨
      (countImports = true ∧ w.complexityFactors.importTimePerImport.IsInfinite ∧ s.imports = 0))

/-- The counts that weights are multiplied by have nearest real numbers. -/
structure CountsFit (w : Weights Amount) (s : Signals) (functions : List Nat) : Prop where
  units : HasReal functions.length
  surplus : ∀ n ∈ functions, HasReal (surplus w n)
  calls : HasReal s.externalCalls
  imports : HasReal s.imports

/-- The components of a score and the total are at least zero, except that the complexity hours and
the total are no numbers under a condition. -/
structure Breakdown.NumberUnless (p : Prop) (b : Breakdown Amount) : Prop where
  base : b.base.AtLeastZero
  complexity : b.complexity.NumberUnless p
  upgradeability : b.upgradeability.AtLeastZero
  total : b.total.NumberUnless p

section

variable {w : Weights Amount} {s : Signals} {functions : List Nat}

theorem baseTime_atLeastZero (hw : ∀ a ∈ w.amounts, a.AtLeastZero) (lines : Nat) :
    (baseTime w lines).AtLeastZero := by
  unfold baseTime bucketTime
  split
  · exact hw _ (by simp [Weights.amounts])
  · split
    · exact hw _ (by simp [Weights.amounts])
    · exact hw _ (by simp [Weights.amounts])

theorem upgradeabilityTime_atLeastZero (hw : ∀ a ∈ w.amounts, a.AtLeastZero) (s : Signals) :
    (upgradeabilityTime w s).AtLeastZero := by
  simp only [Weights.amounts, List.forall_mem_cons] at hw
  obtain ⟨-, -, -, -, -, -, -, -, hproxy, hlayout, hrights, hinitial, hcontracts, -⟩ := hw
  unfold upgradeabilityTime
  split
  · exact (((hproxy.add hlayout).add hrights).add hinitial).add hcontracts
  · exact Int.le_refl 0

/-- The hours of the units are no number exactly if an infinite weight meets a unit without a
function beyond the free ones. -/
theorem unitsTime_numberUnless (hw : ∀ a ∈ w.amounts, a.AtLeastZero)
    (hfit : ∀ n ∈ functions, HasReal (surplus w n)) :
    (unitsTime w functions).NumberUnless
      (w.complexityFactors.functionTime.IsInfinite ∧ ∃ n ∈ functions, surplus w n = 0) := by
  have hweight : w.complexityFactors.functionTime.AtLeastZero := hw _ (by simp [Weights.amounts])
  -- each unit adds its own condition to that of the sum before it
  have hsum : ∀ (p : Prop) (hours : Amount), hours.NumberUnless p →
      ((functions.map (functionTime w)).foldl (· + ·) hours).NumberUnless
        (p ∨ w.complexityFactors.functionTime.IsInfinite ∧ ∃ n ∈ functions, surplus w n = 0) := by
    induction functions with
    | nil =>
      intro p hours hhours
      exact hhours.congr (by simp)
    | cons n rest ih =>
      intro p hours hhours
      have hunit := hweight.mul_count (hfit n (List.mem_cons_self ..))
      have hrest := ih (fun m hm => hfit m (List.mem_cons_of_mem _ hm)) _ _ (hhours.add hunit)
      refine hrest.congr ?_
      simp only [List.mem_cons, exists_eq_or_imp]
      tauto
  have hzero : (0 : Amount).AtLeastZero := Int.le_refl 0
  exact (hsum False 0 hzero.numberUnless).congr (by simp)

theorem signalTime_numberUnless (hw : ∀ a ∈ w.amounts, a.AtLeastZero)
    (hcalls : HasReal s.externalCalls) (himports : HasReal s.imports) (countImports : Bool) :
    (signalTime w s countImports).NumberUnless
      ((w.complexityFactors.externalCallTime.IsInfinite ∧ s.externalCalls = 0) ∨
        (countImports = true ∧ w.complexityFactors.importTimePerImport.IsInfinite ∧
          s.imports = 0)) := by
  simp only [Weights.amounts, List.forall_mem_cons] at hw
  obtain ⟨-, -, -, -, hcall, himport, hflat, hassembly, -⟩ := hw
  have himportTime : (importTime w s countImports).NumberUnless
      (countImports = true ∧ w.complexityFactors.importTimePerImport.IsInfinite ∧
        s.imports = 0) := by
    unfold importTime
    split
    · next hcounted => exact (himport.mul_count himports).congr (by simp [hcounted])
    · next hcounted => exact hflat.numberUnless.congr (by simp [hcounted])
  have hhours := (hcall.mul_count hcalls).add himportTime
  unfold signalTime
  simp only []
  split
  · exact (hhours.add hassembly.numberUnless).congr (by simp)
  · exact hhours

theorem complexityTime_numberUnless (hw : ∀ a ∈ w.amounts, a.AtLeastZero)
    (hfit : CountsFit w s functions) (countImports : Bool) (mode : Mode) :
    (complexityTime w s functions countImports mode).NumberUnless
      (InfiniteMeetsZero w s functions countImports) := by
  have hunits := unitsTime_numberUnless hw hfit.surplus
  have hsignals := signalTime_numberUnless hw hfit.calls hfit.imports countImports
  unfold complexityTime InfiniteMeetsZero
  split
  · next hempty =>
    have hzero : (0 : Amount).AtLeastZero := Int.le_refl 0
    exact hzero.numberUnless.congr (by simp [List.isEmpty_iff.mp hempty])
  · next hsome =>
    have hnonempty : functions ≠ [] := by simpa using hsome
    have hlength : 0 < functions.length := List.length_pos_iff.mpr hnonempty
    cases mode with
    | perUnit =>
      exact (hunits.add (hsignals.mul_pos hfit.units hlength)).congr (by simp [hnonempty])
    | aggregateOnce => exact (hunits.add hsignals).congr (by simp [hnonempty])

end

/-- With any overlays merged into the built-in table no component of a score is negative, and the
complexity hours and the total are no numbers exactly if an infinite weight meets a count of
zero. -/
theorem score_number_unless_infinite {table : Table}
    (hmerges : Relation.ReflTransGen Table.MergesTo .standard table) (s : Signals)
    (functions : List Nat) (countImports : Bool) (mode : Mode)
    (hfit : CountsFit table.weights s functions) :
    (score table.weights s functions countImports mode).NumberUnless
      (InfiniteMeetsZero table.weights s functions countImports) := by
  have hw := (valid_of_merges hmerges).amounts
  have hbase := baseTime_atLeastZero hw s.lineCount
  have hcomplexity := complexityTime_numberUnless hw hfit countImports mode
  have hupgrade := upgradeabilityTime_atLeastZero hw s
  refine ⟨hbase, hcomplexity, hupgrade, ?_⟩
  exact ((hbase.numberUnless.add hcomplexity).add hupgrade.numberUnless).congr (by simp)

/-- An overlay that charges an infinite time for each call. -/
def unboundedOverlay : Json.Value :=
  .obj [("complexityFactors", .obj [("externalCallTime", .real (1.0 / 0.0))])]

/-- With an infinite time for each call a contract that makes a call has an estimate. -/
theorem score_number_with_call : ∃ table,
    Relation.ReflTransGen Table.MergesTo .standard table ∧
    table.weights.complexityFactors.externalCallTime.IsInfinite ∧
    CountsFit table.weights (signals "x.call()") [12] ∧
    (score table.weights (signals "x.call()") [12] false .perUnit).NumberUnless
      (InfiniteMeetsZero table.weights (signals "x.call()") [12] false) := by
  obtain ⟨table, hmerge, hfree, hcall⟩ : ∃ table,
      Table.standard.merge unboundedOverlay = .ok table ∧
        table.weights.complexityFactors.baseFunctionCount = 10 ∧
        table.weights.complexityFactors.externalCallTime = .real (1.0 / 0.0) :=
    ⟨_, rfl, rfl, rfl⟩
  have hmerges : Relation.ReflTransGen Table.MergesTo .standard table := .single ⟨_, hmerge⟩
  have hinfinite : table.weights.complexityFactors.externalCallTime.IsInfinite := by
    rw [hcall]
    exact (by decide +kernel : parts (1.0 / 0.0) = .infinite false)
  have hfit : CountsFit table.weights (signals "x.call()") [12] := by
    have hcounts : (signals "x.call()").externalCalls = 1 ∧ (signals "x.call()").imports = 0 := by
      decide +kernel
    refine ⟨hasReal_of_log2_lt (by decide), ?_, ?_, ?_⟩
    · rw [List.forall_mem_singleton, surplus, hfree]
      exact hasReal_of_log2_lt (by decide)
    · rw [hcounts.1]
      exact hasReal_of_log2_lt (by decide)
    · rw [hcounts.2]
      exact hasReal_of_log2_lt (by decide)
  refine ⟨table, hmerges, hinfinite, hfit, ?_⟩
  exact score_number_unless_infinite hmerges _ _ _ _ hfit

/-- With an infinite time for each call a contract without calls has no number for an estimate. -/
theorem infinite_weight_without_calls : ∃ table,
    Table.standard.merge unboundedOverlay = .ok table ∧
    (score table.weights (signals "") [1] false .perUnit).complexity.IsNaN ∧
    (score table.weights (signals "") [1] false .perUnit).total.IsNaN :=
  ⟨_, rfl, by decide +kernel, by decide +kernel⟩

end AuditHours.Estimate
