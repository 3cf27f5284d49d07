import AuditHours.Proofs.Compiler.StandardOutput
import AuditHours.Proofs.Estimate.Monotone
import Mathlib.Algebra.BigOperators.Group.List.Basic
import Mathlib.Tactic.Ring

/-!
Complexity hours in closed form, in exact arithmetic. They are the hours for the functions of each
contract unit beyond the free ones, and the hours of the signals once for each charge. So neither
the names nor the order of the units matter, and what the two modes and the two ways of counting
imports differ by can be read off.
-/
namespace AuditHours.Estimate

open Compiler Source

/-- How often the signals of a document are charged to a number of contract units. -/
def Mode.charges (mode : Mode) (units : Nat) : Nat :=
  match mode with
  | .perUnit => units
  | .aggregateOnce => 1

section

variable {w : Weights ℚ} {s : Signals} {counts : List Nat} {countImports : Bool} {mode : Mode}

theorem cast_surplus (w : Weights ℚ) (functions : Nat) :
    (surplus w functions : ℚ) = max ((functions : ℚ) - w.complexityFactors.baseFunctionCount) 0 := by
  have hint : ((surplus w functions : Nat) : ℤ) =
      max ((functions : ℤ) - w.complexityFactors.baseFunctionCount) 0 := Int.ofNat_toNat _
  exact_mod_cast congrArg (Int.cast : ℤ → ℚ) hint

theorem unitsTime_eq_sum (w : Weights ℚ) (counts : List Nat) :
    unitsTime w counts = (counts.map fun n : Nat => w.complexityFactors.functionTime *
      max ((n : ℚ) - w.complexityFactors.baseFunctionCount) 0).sum := by
  unfold unitsTime
  rw [← List.sum_eq_foldl]
  refine congrArg List.sum (List.map_congr_left fun n _ => ?_)
  rw [functionTime, cast_surplus]

/-- The complexity hours of a contract with units. -/
theorem complexityTime_eq (hunits : counts ≠ []) : complexityTime w s counts countImports mode =
    unitsTime w counts + mode.charges counts.length * signalTime w s countImports := by
  unfold complexityTime
  rw [if_neg (by simpa using hunits)]
  cases mode with
  | perUnit => simp only [Mode.charges, mul_comm]
  | aggregateOnce => simp only [Mode.charges, Nat.cast_one, one_mul]

theorem complexityTime_nil : complexityTime w s [] countImports mode = 0 := rfl

/-- Only the numbers of functions count, in whatever order. -/
theorem complexityTime_perm {others : List Nat} (h : others.Perm counts) :
    complexityTime w s others countImports mode = complexityTime w s counts countImports mode := by
  by_cases hunits : counts = []
  · subst hunits
    rw [h.eq_nil]
  · have hothers : others ≠ [] := fun hnone => hunits (by simpa [hnone] using h.symm)
    rw [complexityTime_eq hunits, complexityTime_eq hothers, unitsTime_eq_sum, unitsTime_eq_sum,
      (h.map _).sum_eq, h.length_eq]

/-- Counting imports exchanges the flat rate for the hours of each import. -/
theorem signalTime_switch (w : Weights ℚ) (s : Signals) :
    signalTime w s true - signalTime w s false =
      w.complexityFactors.importTimePerImport * s.imports -
        w.complexityFactors.importTimeFlatRate := by
  simp only [signalTime, importTime, if_true, Bool.false_eq_true, if_false]
  split <;> ring

theorem signalTime_nonneg (hw : ∀ a ∈ w.amounts, 0 ≤ a) (s : Signals) (countImports : Bool) :
    0 ≤ signalTime w s countImports := by
  simp only [Weights.amounts, List.forall_mem_cons] at hw
  obtain ⟨-, -, -, -, hcall, himport, hflat, hassembly, -⟩ := hw
  have himports : 0 ≤ importTime w s countImports := by
    unfold importTime
    split
    · positivity
    · exact hflat
  unfold signalTime
  split <;> positivity

end

/-! ### Inventories -/

/-- The numbers of functions of an inventory go with what its units contain, not with their names.
-/
theorem counts_of_rearranged {inventory other : Inventory} {counts : List Nat}
    (hcounts : inventory.mapM (·.functionCount) = .ok counts)
    (h : (other.map ContractUnit.members).Perm (inventory.map ContractUnit.members)) :
    ∃ others, other.mapM (·.functionCount) = .ok others ∧ others.Perm counts := by
  let Counts (members : List Json.Value) (n : Nat) : Prop :=
    (ContractUnit.mk "" members).functionCount = .ok n
  have hmembers : List.Forall₂ Counts (inventory.map ContractUnit.members) counts :=
    List.forall₂_map_left_iff.mpr (mapM_eq_ok.mp hcounts)
  obtain ⟨others, hothers, hperm⟩ := List.perm_comp_forall₂ h hmembers
  exact ⟨others, mapM_eq_ok.mpr (List.forall₂_map_left_iff.mp hothers), hperm⟩

/-- The complexity hours of a document with an inventory whose units have the given numbers of
functions. -/
structure ClosedForm (w : Weights ℚ) (s : Signals) (inventory : Inventory) (counts : List Nat) :
    Prop where
  /-- Each unit adds the hours of its functions beyond the free ones, and the signals are charged
  once for each unit or once in all. -/
  formula : inventory ≠ [] → ∀ countImports mode, complexityTime w s counts countImports mode =
    (counts.map fun n : Nat => w.complexityFactors.functionTime *
        max ((n : ℚ) - w.complexityFactors.baseFunctionCount) 0).sum +
      mode.charges inventory.length * signalTime w s countImports
  empty : inventory = [] → ∀ countImports mode, complexityTime w s counts countImports mode = 0
  rearranged : ∀ other : Inventory,
    (other.map ContractUnit.members).Perm (inventory.map ContractUnit.members) →
      ∃ others, other.mapM (·.functionCount) = .ok others ∧ ∀ countImports mode,
        complexityTime w s others countImports mode = complexityTime w s counts countImports mode
  modes_apart : inventory ≠ [] → ∀ countImports,
    complexityTime w s counts countImports .perUnit -
        complexityTime w s counts countImports .aggregateOnce =
      ((inventory.length : ℚ) - 1) * signalTime w s countImports ∧
    0 ≤ ((inventory.length : ℚ) - 1) * signalTime w s countImports
  imports_counted : inventory ≠ [] → ∀ mode,
    (score w s counts true mode).complexity - (score w s counts false mode).complexity =
      mode.charges inventory.length * (w.complexityFactors.importTimePerImport * s.imports -
        w.complexityFactors.importTimeFlatRate) ∧
    (score w s counts true mode).base = (score w s counts false mode).base ∧
    (score w s counts true mode).upgradeability = (score w s counts false mode).upgradeability
  total : ∀ countImports mode, (score w s counts countImports mode).total =
    (score w s counts countImports mode).base + (score w s counts countImports mode).complexity +
      (score w s counts countImports mode).upgradeability

/-- In exact arithmetic the complexity hours have a closed form under every valid table of finite
weights, for every document and every inventory. -/
theorem complexity_closed_form {w : Weights Number.Amount} {e : Weights ℚ} (hvalid : w.Valid)
    (hexact : w.rational? = some e) (s : Signals) {inventory : Inventory} {counts : List Nat}
    (hcounts : inventory.mapM (·.functionCount) = .ok counts) :
    ClosedForm e s inventory counts := by
  have hlength : inventory.length = counts.length := (mapM_eq_ok.mp hcounts).length_eq
  have hunits : inventory ≠ [] → counts ≠ [] := by
    intro hinventory hnone
    rw [hnone, List.length_nil] at hlength
    exact hinventory (List.eq_nil_of_length_eq_zero hlength)
  have hformula : inventory ≠ [] → ∀ countImports mode,
      complexityTime e s counts countImports mode =
        unitsTime e counts + mode.charges inventory.length * signalTime e s countImports := by
    intro hinventory countImports mode
    rw [complexityTime_eq (hunits hinventory), hlength]
  refine ⟨?_, ?_, ?_, ?_, ?_, fun _ _ => rfl⟩
  · intro hinventory countImports mode
    rw [hformula hinventory, unitsTime_eq_sum]
  · intro hinventory countImports mode
    have hnone : counts = [] := List.eq_nil_of_length_eq_zero (by rw [← hlength, hinventory]; rfl)
    rw [hnone, complexityTime_nil]
  · intro other hother
    obtain ⟨others, hothers, hperm⟩ := counts_of_rearranged hcounts hother
    exact ⟨others, hothers, fun _ _ => complexityTime_perm hperm⟩
  · intro hinventory countImports
    have hsignals := signalTime_nonneg (hvalid.exact_nonneg hexact) s countImports
    have hfirst : (1 : ℚ) ≤ inventory.length :=
      Nat.one_le_cast.mpr (List.length_pos_iff.mpr hinventory)
    refine ⟨?_, mul_nonneg (sub_nonneg.mpr hfirst) hsignals⟩
    rw [hformula hinventory, hformula hinventory]
    simp only [Mode.charges, Nat.cast_one]
    ring
  · intro hinventory mode
    refine ⟨?_, rfl, rfl⟩
    rw [← signalTime_switch]
    simp only [score, hformula hinventory]
    ring

def unevenUnits : Inventory :=
  [⟨"Token", List.replicate 12 (.obj [("type", .str "function")])⟩,
    ⟨"Events", [.obj [("type", .str "event")]]⟩]

/-- Under the built-in table the two units of a document with a call cost one hour for their
functions, and seven for the signals of the document for each of them. -/
theorem complexity_closed_form_uneven : Weights.builtIn.Valid ∧
    Weights.builtIn.rational? = some exactBuiltIn ∧
    unevenUnits.mapM (·.functionCount) = .ok [12, 0] ∧
    ClosedForm exactBuiltIn (signals "x.call()") unevenUnits [12, 0] ∧
    complexityTime exactBuiltIn (signals "x.call()") [12, 0] false .perUnit = 15 := by
  have hcounts : unevenUnits.mapM (·.functionCount) = .ok [12, 0] := by rfl
  have hform : ClosedForm exactBuiltIn (signals "x.call()") unevenUnits [12, 0] :=
    complexity_closed_form Weights.valid_builtIn exact_builtIn (signals "x.call()") hcounts
  refine ⟨Weights.valid_builtIn, exact_builtIn, hcounts, hform, ?_⟩
  have hsignals : signals "x.call()" = ⟨1, 1, 0, false, false⟩ := by decide +kernel
  rw [hform.formula (by simp [unevenUnits]), hsignals]
  norm_num [exactBuiltIn, signalTime, importTime, Mode.charges, unevenUnits]

end AuditHours.Estimate
