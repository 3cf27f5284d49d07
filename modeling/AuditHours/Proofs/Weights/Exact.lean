import AuditHours.Proofs.Weights.LeafByLeaf
import Mathlib.Algebra.Order.Field.Rat
import Mathlib.Algebra.Order.Field.Power
import Mathlib.Tactic.NormNum
import Mathlib.Tactic.Positivity

/-!
Exact values of amounts. A finite amount is a rational number, and a table of finite amounts is a
table of rational numbers. The hours of a valid table are at least zero.
-/
namespace AuditHours

open Number Json

namespace Number

def Parts.rational? : Parts → Option ℚ
  | .finite negative mantissa exponent =>
    some ((if negative then -(mantissa : ℚ) else mantissa) * 2 ^ exponent)
  | _ => none

def Amount.rational? : Amount → Option ℚ
  | .whole n => some n
  | .real x => (parts x).rational?

theorem Parts.rational?_nonneg {p : Parts} {q : ℚ} (hp : p.isAtLeastZero = true)
    (hq : p.rational? = some q) : 0 ≤ q := by
  cases p with
  | nan | infinite negative => simp [rational?] at hq
  | finite negative mantissa exponent =>
    rw [← Option.some.inj hq]
    have hpower : (0 : ℚ) < 2 ^ exponent := by positivity
    refine mul_nonneg ?_ hpower.le
    by_cases hsign : negative = true
    · obtain rfl : mantissa = 0 := by simpa [isAtLeastZero, hsign] using hp
      simp
    · simp [hsign]

theorem Amount.rational?_nonneg {a : Amount} {q : ℚ} (ha : a.AtLeastZero)
    (hq : a.rational? = some q) : 0 ≤ q := by
  cases a with
  | whole n =>
    rw [← Option.some.inj hq]
    exact_mod_cast (ha : 0 ≤ n)
  | real x => exact Parts.rational?_nonneg ha hq

end Number

namespace Weights

section

variable {α β : Type} {f : α → Option β}

/-- The hours of a table, in the order of its document. -/
def amounts (w : Weights α) : List α :=
  let times := w.baseTimes
  let factors := w.complexityFactors
  let upgrade := factors.upgradeability
  [times.small, times.medium, times.large, factors.functionTime, factors.externalCallTime,
    factors.importTimePerImport, factors.importTimeFlatRate, factors.assemblyTime,
    upgrade.proxyPattern, upgrade.storageLayout, upgrade.adminRights, upgrade.initialization,
    upgrade.interContractConsistency]

def BaseTimes.traverse (f : α → Option β) (t : BaseTimes α) : Option (BaseTimes β) := do
  return ⟨← f t.small, ← f t.medium, ← f t.large⟩

def Upgradeability.traverse (f : α → Option β) (u : Upgradeability α) :
    Option (Upgradeability β) := do
  return ⟨← f u.proxyPattern, ← f u.storageLayout, ← f u.adminRights, ← f u.initialization,
    ← f u.interContractConsistency⟩

def Factors.traverse (f : α → Option β) (t : Factors α) : Option (Factors β) := do
  return {
    functionTime := ← f t.functionTime
    baseFunctionCount := t.baseFunctionCount
    externalCallTime := ← f t.externalCallTime
    importTimePerImport := ← f t.importTimePerImport
    importTimeFlatRate := ← f t.importTimeFlatRate
    assemblyTime := ← f t.assemblyTime
    upgradeability := ← t.upgradeability.traverse f }

/-- A table with its hours taken to another type, if all can be. -/
def traverse (f : α → Option β) (w : Weights α) : Option (Weights β) := do
  return ⟨w.sizeThresholds, ← w.baseTimes.traverse f, ← w.complexityFactors.traverse f⟩

/-- Taking the hours of a table to another type changes nothing else in it. -/
theorem traverse_eq_some {w : Weights α} {e : Weights β} : w.traverse f = some e ↔
    w.amounts.map f = e.amounts.map some ∧ w.sizeThresholds = e.sizeThresholds ∧
    w.complexityFactors.baseFunctionCount = e.complexityFactors.baseFunctionCount := by
  obtain ⟨thresholds, ⟨small, medium, large⟩, ⟨_, _, _, _, _, _, ⟨_, _, _, _, _⟩⟩⟩ := w
  obtain ⟨thresholds', ⟨small', medium', large'⟩, ⟨_, _, _, _, _, _, ⟨_, _, _, _, _⟩⟩⟩ := e
  simp [traverse, BaseTimes.traverse, Factors.traverse, Upgradeability.traverse, amounts,
    Option.bind_eq_some_iff, and_assoc]

/-- Each hour of the other table comes from one of the table. -/
theorem exists_of_traverse {w : Weights α} {e : Weights β} (h : w.traverse f = some e) {b : β}
    (hb : b ∈ e.amounts) : ∃ a ∈ w.amounts, f a = some b := by
  have hmem : some b ∈ w.amounts.map f := by
    rw [(traverse_eq_some.mp h).1]
    exact List.mem_map_of_mem hb
  exact List.mem_map.mp hmem

end

/-- The hours of a valid table are at least zero. -/
theorem Valid.amounts {w : Weights Amount} (h : w.Valid) :
    ∀ a ∈ w.amounts, a.AtLeastZero := by
  have hleaf := h.inOrder.weights
  simp only [Weights.amounts, List.forall_mem_cons]
  exact ⟨hleaf ["baseTimes", "small"] _ rfl, hleaf ["baseTimes", "medium"] _ rfl,
    hleaf ["baseTimes", "large"] _ rfl, hleaf ["complexityFactors", "functionTime"] _ rfl,
    hleaf ["complexityFactors", "externalCallTime"] _ rfl,
    hleaf ["complexityFactors", "importTimePerImport"] _ rfl,
    hleaf ["complexityFactors", "importTimeFlatRate"] _ rfl,
    hleaf ["complexityFactors", "assemblyTime"] _ rfl,
    hleaf ["complexityFactors", "upgradeability", "proxyPattern"] _ rfl,
    hleaf ["complexityFactors", "upgradeability", "storageLayout"] _ rfl,
    hleaf ["complexityFactors", "upgradeability", "adminRights"] _ rfl,
    hleaf ["complexityFactors", "upgradeability", "initialization"] _ rfl,
    hleaf ["complexityFactors", "upgradeability", "interContractConsistency"] _ rfl, by simp⟩

def rational? (w : Weights Amount) : Option (Weights ℚ) := w.traverse Amount.rational?

theorem Valid.exact_nonneg {w : Weights Amount} {e : Weights ℚ} (h : w.Valid)
    (hexact : w.rational? = some e) : ∀ q ∈ e.amounts, 0 ≤ q := by
  intro q hq
  obtain ⟨a, ha, hvalue⟩ := exists_of_traverse hexact hq
  exact Amount.rational?_nonneg (h.amounts a ha) hvalue

end Weights

end AuditHours
