import AuditHours.Estimate.Score
import AuditHours.Proofs.Source.Embedding
import AuditHours.Proofs.Weights.Exact
import Mathlib.Algebra.Order.Ring.Cast

/-!
Scores in exact arithmetic. With weights of at least zero no component of a score falls when the
signals of the source become stronger, if the hours of the buckets rise from the small to the large
one. So text added around a contract never makes its audit cheaper.
-/
namespace AuditHours.Estimate

open Source

/-- No component of a score is above that of another one, and neither is the total. -/
structure Breakdown.AtMost {α : Type} [Add α] [LE α] (s t : Breakdown α) : Prop where
  base : s.base ≤ t.base
  complexity : s.complexity ≤ t.complexity
  upgradeability : s.upgradeability ≤ t.upgradeability
  total : s.total ≤ t.total

section

variable {α : Type} [PartialOrder α] {w : Weights α} {s t : Signals}

def Rising (w : Weights α) : Prop :=
  w.baseTimes.small ≤ w.baseTimes.medium ∧ w.baseTimes.medium ≤ w.baseTimes.large

/-- A document that fits fewer buckets falls into a larger one. -/
theorem bucketTime_mono {fits fits' : Int → Bool} (hw : Rising w)
    (hfits : ∀ bound, fits' bound = true → fits bound = true) :
    bucketTime fits w ≤ bucketTime fits' w := by
  obtain ⟨hsmall, hmedium⟩ := hw
  have hsmallFits := hfits w.sizeThresholds.small
  have hmediumFits := hfits w.sizeThresholds.medium
  unfold bucketTime
  by_cases hfitsSmall : fits w.sizeThresholds.small = true
  · rw [if_pos hfitsSmall]
    split
    · exact le_refl _
    · split
      · exact hsmall
      · exact hsmall.trans hmedium
  · rw [if_neg hfitsSmall, if_neg (mt hsmallFits hfitsSmall)]
    by_cases hfitsMedium : fits w.sizeThresholds.medium = true
    · rw [if_pos hfitsMedium]
      split
      · exact le_refl _
      · exact hmedium
    · rw [if_neg hfitsMedium, if_neg (mt hmediumFits hfitsMedium)]

theorem baseTime_mono {lines lines' : Nat} (hw : Rising w) (hlines : lines ≤ lines') :
    baseTime w lines ≤ baseTime w lines' := by
  apply bucketTime_mono hw
  intro bound hbound
  have hfits : (lines' : Int) ≤ bound := of_decide_eq_true hbound
  exact decide_eq_true (by omega)

variable [Semiring α] [IsOrderedRing α]

theorem importTime_mono (hw : ∀ a ∈ w.amounts, 0 ≤ a) (h : s.AtMost t) (countImports : Bool) :
    importTime w s countImports ≤ importTime w t countImports := by
  have hweight : 0 ≤ w.complexityFactors.importTimePerImport := hw _ (by simp [Weights.amounts])
  have hcount : (s.imports : α) ≤ t.imports := Nat.mono_cast h.imports
  unfold importTime
  split
  · exact mul_le_mul_of_nonneg_left hcount hweight
  · exact le_refl _

theorem signalTime_mono (hw : ∀ a ∈ w.amounts, 0 ≤ a) (h : s.AtMost t) (countImports : Bool) :
    signalTime w s countImports ≤ signalTime w t countImports := by
  have hweight : 0 ≤ w.complexityFactors.externalCallTime := hw _ (by simp [Weights.amounts])
  have hassembly : 0 ≤ w.complexityFactors.assemblyTime := hw _ (by simp [Weights.amounts])
  have hcount : (s.externalCalls : α) ≤ t.externalCalls := Nat.mono_cast h.externalCalls
  have hcalls := mul_le_mul_of_nonneg_left hcount hweight
  have hhours := add_le_add hcalls (importTime_mono hw h countImports)
  unfold signalTime
  by_cases hs : s.hasAssembly = true
  · rw [if_pos hs, if_pos (h.hasAssembly hs)]
    exact add_le_add_left hhours _
  · rw [if_neg hs]
    split
    · exact hhours.trans (le_add_of_nonneg_right hassembly)
    · exact hhours

theorem complexityTime_mono (hw : ∀ a ∈ w.amounts, 0 ≤ a) (h : s.AtMost t) (functions : List Nat)
    (countImports : Bool) (mode : Mode) :
    complexityTime w s functions countImports mode ≤
      complexityTime w t functions countImports mode := by
  have hhours := signalTime_mono hw h countImports
  have hunits : (0 : α) ≤ functions.length := Nat.cast_nonneg _
  unfold complexityTime
  split
  · exact le_refl _
  · cases mode with
    | perUnit => exact add_le_add_right (mul_le_mul_of_nonneg_right hhours hunits) _
    | aggregateOnce => exact add_le_add_right hhours _

theorem upgradeTotal_nonneg (hw : ∀ a ∈ w.amounts, 0 ≤ a) :
    0 ≤ upgradeTotal w.complexityFactors.upgradeability := by
  simp only [Weights.amounts, List.forall_mem_cons] at hw
  obtain ⟨-, -, -, -, -, -, -, -, hproxy, hlayout, hrights, hinitial, hcontracts, -⟩ := hw
  unfold upgradeTotal
  positivity

theorem upgradeabilityTime_mono (hw : ∀ a ∈ w.amounts, 0 ≤ a) (h : s.AtMost t) :
    upgradeabilityTime w s ≤ upgradeabilityTime w t := by
  unfold upgradeabilityTime
  by_cases hs : s.isUpgradeable = true
  · rw [if_pos hs, if_pos (h.isUpgradeable hs)]
  · rw [if_neg hs]
    split
    · exact upgradeTotal_nonneg hw
    · exact le_refl _

/-- Stronger signals make no component of a score lower. -/
theorem score_mono (hw : ∀ a ∈ w.amounts, 0 ≤ a) (hrising : Rising w) (h : s.AtMost t)
    (functions : List Nat) (countImports : Bool) (mode : Mode) :
    (score w s functions countImports mode).AtMost (score w t functions countImports mode) := by
  have hbase := baseTime_mono hrising h.lineCount
  have hcomplexity := complexityTime_mono hw h functions countImports mode
  have hupgrade := upgradeabilityTime_mono hw h
  exact ⟨hbase, hcomplexity, hupgrade, add_le_add (add_le_add hbase hcomplexity) hupgrade⟩

end

/-- In exact arithmetic text around a contract lowers no component of its score, whatever valid
weights are used, if the hours of the buckets rise. -/
theorem adding_text_lowers_nothing {w : Weights Number.Amount} {e : Weights ℚ} (hvalid : w.Valid)
    (hexact : w.rational? = some e) (hrising : Rising e) (a d b : String) (functions : List Nat)
    (countImports : Bool) (mode : Mode) :
    (score e (signals d) functions countImports mode).AtMost
      (score e (signals (a ++ d ++ b)) functions countImports mode) :=
  score_mono (hvalid.exact_nonneg hexact) hrising (signals_atMost a d b) functions countImports mode

def exactBuiltIn : Weights ℚ where
  sizeThresholds := ⟨200, 1000⟩
  baseTimes := ⟨5, 20, 50⟩
  complexityFactors :=
    { functionTime := 1 / 2
      baseFunctionCount := 10
      externalCallTime := 2
      importTimePerImport := 3
      importTimeFlatRate := 5
      assemblyTime := 3
      upgradeability := ⟨3, 5, 2, 2, 4⟩ }

theorem exact_builtIn : Weights.builtIn.rational? = some exactBuiltIn := by
  have hhalf : Number.parts 0.5 = .finite false (2 ^ 52) (-53) := by decide +kernel
  refine Weights.traverse_eq_some.mpr ⟨?_, rfl, rfl⟩
  simp [Weights.amounts, Weights.builtIn, exactBuiltIn, Number.Amount.rational?, hhalf,
    Number.Parts.rational?]
  norm_num

/-- A call that the added text completes is charged, and nothing becomes cheaper. -/
theorem adding_text_completes_call : Weights.builtIn.Valid ∧
    Weights.builtIn.rational? = some exactBuiltIn ∧ Rising exactBuiltIn ∧
    (signals "x.call").externalCalls = 0 ∧ (signals ("" ++ "x.call" ++ "()")).externalCalls = 1 ∧
    (score exactBuiltIn (signals "x.call") [12] true .perUnit).AtMost
      (score exactBuiltIn (signals ("" ++ "x.call" ++ "()")) [12] true .perUnit) := by
  have hrising : Rising exactBuiltIn := by constructor <;> norm_num [exactBuiltIn]
  refine ⟨Weights.valid_builtIn, exact_builtIn, hrising, by decide +kernel, by decide +kernel, ?_⟩
  exact adding_text_lowers_nothing Weights.valid_builtIn exact_builtIn hrising "" "x.call" "()"
    [12] true .perUnit

end AuditHours.Estimate
