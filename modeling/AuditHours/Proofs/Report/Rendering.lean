import AuditHours.Estimate.Pipeline
import AuditHours.Proofs.Stage
import AuditHours.Proofs.Validation.Acceptance
import AuditHours.Report.Layout

/-!
Reports of estimates. Whatever table a run has, the hours of its estimate are real numbers or small
whole ones. Such hours can be written, so each format has a report for every estimate of a run.
-/
namespace AuditHours

open Json Number

/-! ### Amounts that can be written -/

def Number.Amount.Within (bound : Nat) : Amount → Prop
  | .whole n => 0 ≤ n ∧ n ≤ bound
  | .real _ => True

namespace Number.Amount

variable {a b : Amount} {m n : Nat}

theorem Within.mono (h : a.Within m) (hmn : m ≤ n) : a.Within n := by
  cases a with
  | real x => trivial
  | whole k => exact ⟨h.1, by have := h.2; omega⟩

theorem Within.add (ha : a.Within m) (hb : b.Within n) : (a + b).Within (m + n) := by
  cases a with
  | real x => cases b <;> trivial
  | whole j =>
    cases b with
    | real x => trivial
    | whole k =>
      obtain ⟨hj, hjm⟩ := ha
      obtain ⟨hk, hkn⟩ := hb
      exact ⟨Int.add_nonneg hj hk, by push_cast; omega⟩

theorem within_real_add (x : Float) (a : Amount) (n : Nat) : (Amount.real x + a).Within n := by
  cases a <;> trivial

end Number.Amount

/-- Small whole numbers can be rounded to reals. -/
theorem Number.isSome_ofInt?_of_small {n : Int} (hzero : 0 ≤ n) (hn : n ≤ 75) :
    (ofInt? n).isSome = true := by
  have hall : ∀ k : Fin 76, (ofInt? (k.val : Int)).isSome = true := by decide +kernel
  obtain ⟨k, rfl⟩ := Int.eq_ofNat_of_zero_le hzero
  exact hall ⟨k, by omega⟩

theorem Report.hours_of_within {a : Amount} (h : a.Within 75) :
    ∃ text, Report.hours (Weights.amountValue a) = .ok text := by
  cases a with
  | real x => exact ⟨_, rfl⟩
  | whole n =>
    obtain ⟨x, hx⟩ := Option.isSome_iff_exists.mp (isSome_ofInt?_of_small h.1 h.2)
    exact ⟨hoursText x, by simp [Report.hours, hoursOf, Weights.amountValue, hx, Except.map]⟩

/-! ### Tables of a run -/

namespace Weights

open Validation

/-- A table whose hours for a function are real and whose whole hours are small. -/
structure Modest (w : Weights Amount) : Prop where
  functionTime : ∃ x, w.complexityFactors.functionTime = .real x
  small : w.baseTimes.small.Within 50
  medium : w.baseTimes.medium.Within 50
  large : w.baseTimes.large.Within 50
  upgradeability : (Estimate.upgradeTotal w.complexityFactors.upgradeability).Within 25

theorem modest_builtIn : builtIn.Modest where
  functionTime := ⟨0.5, rfl⟩
  small := ⟨by decide, by decide⟩
  medium := ⟨by decide, by decide⟩
  large := ⟨by decide, by decide⟩
  upgradeability := ⟨by decide, by decide⟩

theorem real_of_read {location : List String} {v : Value} {a : Amount}
    (h : readWeight location v = .valid a) : ∃ x, a = .real x := by
  have hweight := scalar_eq_valid.mp h
  cases hx : weight v with
  | error reason => simp [hx, Except.map] at hweight
  | ok x => exact ⟨x, by simpa [hx, Except.map, eq_comm] using hweight⟩

/-- What holds of the default and of all that is read holds of the value of a key. -/
theorem holds_of_read {α : Type} (rule : α → Prop) {key : Key} {fields : Fields}
    {location : List String} {default x : α} {reader : List String → Value → Checked α}
    (h : key.read fields location default reader = .valid x) (hdefault : rule default)
    (hreader : ∀ below v, reader below v = .valid x → rule x) : rule x := by
  rcases Key.read_eq_valid h with rfl | ⟨below, v, hread⟩
  · exact hdefault
  · exact hreader below v hread

/-- A weight of a document is real, and a missing one is the default. -/
theorem within_of_read {key : Key} {fields : Fields} {location : List String} {default a : Amount}
    {bound : Nat} (h : key.read fields location default readWeight = .valid a)
    (hdefault : default.Within bound) : a.Within bound := by
  refine holds_of_read (·.Within bound) h hdefault fun below v hread => ?_
  obtain ⟨x, rfl⟩ := real_of_read hread
  trivial

theorem BaseTimes.within_of_read {location : List String} {v : Value} {t : BaseTimes Amount}
    (h : BaseTimes.read location v = .valid t) :
    t.small.Within 50 ∧ t.medium.Within 50 ∧ t.large.Within 50 := by
  obtain ⟨fields, -, hfields, -⟩ := group_eq_valid.mp h
  simp only [readFields, Checked.seq_eq_valid, Checked.map_eq_valid] at hfields
  obtain ⟨_, large, ⟨_, medium, ⟨small, hsmall, rfl⟩, hmedium, rfl⟩, hlarge, rfl⟩ := hfields
  exact ⟨Weights.within_of_read hsmall modest_builtIn.small,
    Weights.within_of_read hmedium modest_builtIn.medium,
    Weights.within_of_read hlarge modest_builtIn.large⟩

theorem Upgradeability.within_of_read {location : List String} {v : Value}
    {u : Upgradeability Amount} (h : Upgradeability.read location v = .valid u) :
    (Estimate.upgradeTotal u).Within 25 := by
  have hstandard : ∀ n : Int, 0 ≤ n → n ≤ 5 → (Amount.whole n).Within 5 := fun n h h' => ⟨h, h'⟩
  obtain ⟨fields, -, hfields, -⟩ := group_eq_valid.mp h
  simp only [readFields, Checked.seq_eq_valid, Checked.map_eq_valid] at hfields
  obtain ⟨_, consistency, ⟨_, initialization, ⟨_, rights, ⟨_, layout, ⟨proxy, hproxy, rfl⟩,
    hlayout, rfl⟩, hrights, rfl⟩, hinitialization, rfl⟩, hconsistency, rfl⟩ := hfields
  have hproxy := Weights.within_of_read hproxy (hstandard 3 (by decide) (by decide))
  have hlayout := Weights.within_of_read hlayout (hstandard 5 (by decide) (by decide))
  have hrights := Weights.within_of_read hrights (hstandard 2 (by decide) (by decide))
  have hinitialization :=
    Weights.within_of_read hinitialization (hstandard 2 (by decide) (by decide))
  have hconsistency := Weights.within_of_read hconsistency (hstandard 4 (by decide) (by decide))
  exact (((hproxy.add hlayout).add hrights).add hinitialization).add hconsistency

theorem Factors.modest_of_read {location : List String} {v : Value} {f : Factors Amount}
    (h : Factors.read location v = .valid f) : (∃ x, f.functionTime = .real x) ∧
      (Estimate.upgradeTotal f.upgradeability).Within 25 := by
  obtain ⟨fields, -, hfields, -⟩ := group_eq_valid.mp h
  simp only [readFields, Checked.seq_eq_valid, Checked.map_eq_valid] at hfields
  obtain ⟨_, upgrades, ⟨_, assembly, ⟨_, flat, ⟨_, perImport, ⟨_, calls, ⟨_, count,
    ⟨functions, hfunctions, rfl⟩, -, rfl⟩, -, rfl⟩, -, rfl⟩, -, rfl⟩, -, rfl⟩, hupgrades, rfl⟩ :=
      hfields
  exact ⟨holds_of_read (fun a => ∃ x, a = .real x) hfunctions modest_builtIn.functionTime
      fun _ _ => real_of_read,
    holds_of_read (fun u => (Estimate.upgradeTotal u).Within 25) hupgrades
      modest_builtIn.upgradeability fun _ _ => Upgradeability.within_of_read⟩

theorem modest_of_read {v : Value} {w : Weights Amount} (h : read v = .valid w) : w.Modest := by
  obtain ⟨fields, -, hfields, -⟩ := group_eq_valid.mp h
  simp only [readFields, Checked.seq_eq_valid, Checked.map_eq_valid] at hfields
  obtain ⟨_, factors, ⟨_, times, ⟨thresholds, -, rfl⟩, htimes, rfl⟩, hfactors, rfl⟩ := hfields
  obtain ⟨hsmall, hmedium, hlarge⟩ :
      times.small.Within 50 ∧ times.medium.Within 50 ∧ times.large.Within 50 :=
    holds_of_read (fun t => t.small.Within 50 ∧ t.medium.Within 50 ∧ t.large.Within 50) htimes
      ⟨modest_builtIn.small, modest_builtIn.medium, modest_builtIn.large⟩
      fun _ _ => BaseTimes.within_of_read
  obtain ⟨hfunction, hupgrade⟩ : (∃ x, factors.functionTime = .real x) ∧
      (Estimate.upgradeTotal factors.upgradeability).Within 25 :=
    holds_of_read (fun f => (∃ x, f.functionTime = .real x) ∧
        (Estimate.upgradeTotal f.upgradeability).Within 25) hfactors
      ⟨modest_builtIn.functionTime, modest_builtIn.upgradeability⟩ fun _ _ => Factors.modest_of_read
  exact ⟨hfunction, hsmall, hmedium, hlarge, hupgrade⟩

/-- Every table of a run is modest. -/
theorem modest_of_merge {overlay : Value} {table : Table}
    (h : Table.standard.merge overlay = .ok table) : table.weights.Modest := by
  unfold Table.merge at h
  split at h
  · obtain rfl := Except.ok.inj h
    exact modest_builtIn
  · split at h
    · split at h
      · next hread =>
        obtain rfl := Except.ok.inj h
        exact modest_of_read hread
      · simp at h
    · simp at h

end Weights

/-! ### Estimates of a run -/

namespace Estimate

variable {w : Weights Amount} {breakdown : Breakdown Amount}

structure Breakdown.Writable (b : Breakdown Amount) : Prop where
  base : b.base.Within 50
  complexity : b.complexity.Within 0
  upgradeability : b.upgradeability.Within 25

theorem Breakdown.Writable.total (h : breakdown.Writable) : breakdown.total.Within 75 :=
  (h.base.add h.complexity).add h.upgradeability

/-- With a modest table the hours of all units together are real. -/
theorem unitsTime_real (hw : w.Modest) {functions : List Nat} (hfunctions : functions ≠ []) :
    ∃ x, unitsTime w functions = .real x := by
  obtain ⟨time, htime⟩ := hw.functionTime
  -- the first function makes the sum real, and from there on it stays so
  have hsum : ∀ (amounts : List Nat) (start : Float), ∃ x,
      (amounts.map (functionTime w)).foldl (· + ·) (Amount.real start) = .real x := by
    intro amounts
    induction amounts with
    | nil => exact fun start => ⟨start, rfl⟩
    | cons n rest ih =>
      intro start
      rw [List.map_cons, List.foldl_cons, functionTime, htime]
      exact ih _
  obtain ⟨n, rest, rfl⟩ := List.exists_cons_of_ne_nil hfunctions
  rw [unitsTime, List.map_cons, List.foldl_cons, functionTime, htime]
  exact hsum rest _

theorem writable_score (hw : w.Modest) (signals : Source.Signals) (functions : List Nat)
    (countImports : Bool) (mode : Mode) :
    (score w signals functions countImports mode).Writable where
  base := by
    change (baseTime w signals.lineCount).Within 50
    unfold baseTime bucketTime
    split
    · exact hw.small
    · split
      · exact hw.medium
      · exact hw.large
  complexity := by
    change (complexityTime w signals functions countImports mode).Within 0
    unfold complexityTime
    split
    · exact ⟨Int.le_refl 0, Int.le_refl 0⟩
    · next hsome =>
      have hunits : functions ≠ [] := by simpa using hsome
      obtain ⟨x, hx⟩ := unitsTime_real hw hunits
      rw [hx]
      cases mode with
      | perUnit | aggregateOnce => exact Amount.within_real_add x _ 0
  upgradeability := by
    change (upgradeabilityTime w signals).Within 25
    unfold upgradeabilityTime
    split
    · exact hw.upgradeability
    · exact ⟨Int.le_refl 0, by decide⟩

def Result.Writable (estimate : Result) : Prop := estimate.breakdown.Writable

theorem returns_tableFor (config : Option String) :
    Run.Returns (fun table => table.weights.Modest) (Weights.tableFor config) := by
  cases config with
  | none => exact Run.Returns.pure Weights.modest_builtIn
  | some path =>
    refine Run.Returns.after fun overlay => ?_
    refine Run.Returns.bind (Run.Returns.ofResult fun table => Weights.modest_of_merge) ?_
    exact fun table htable => Run.Returns.after fun _ => Run.Returns.pure htable

/-- Every estimate of a run can be written. -/
theorem returns_estimateFile (e : Estimator) (path : String) (config : Option String)
    (options : Options) : Run.Returns Result.Writable (e.estimateFile path config options) := by
  refine Run.Returns.after fun _ => Run.Returns.after fun source => ?_
  refine Run.Returns.bind (returns_tableFor config) fun table htable => ?_
  suffices hsource : Run.Returns Result.Writable (e.estimateSource source table options) from
    Run.Returns.bind hsource fun estimate hestimate => Run.Returns.pure hestimate
  refine Run.Returns.after fun mode => Run.Returns.after fun constraint => ?_
  refine Run.Returns.after fun build => Run.Returns.after fun inventory => ?_
  refine Run.Returns.after fun counts => ?_
  have hrate : Run.Returns Breakdown.Writable
      (rate table.weights (Source.signals source) counts options.countImports mode) :=
    Run.Returns.after fun _ => Run.Returns.pure (writable_score htable ..)
  refine Run.Returns.bind hrate fun breakdown hbreakdown => ?_
  exact Run.Returns.after fun _ => Run.Returns.pure hbreakdown

end Estimate

/-! ### Reports -/

namespace Report

theorem fillAll_ok {data : Fields} {pieces : List Piece}
    (h : ∀ piece ∈ pieces, ∃ text, piece.fill data = .ok text) :
    ∃ text, fillAll data pieces = .ok text := by
  induction pieces with
  | nil => exact ⟨"", rfl⟩
  | cons piece rest ih =>
    obtain ⟨first, hfirst⟩ := h piece (List.mem_cons_self ..)
    obtain ⟨others, hothers⟩ := ih fun other hother => h other (List.mem_cons_of_mem _ hother)
    exact ⟨first ++ others, by simp [fillAll, hfirst, hothers, bind, Except.bind, pure, Except.pure]⟩

variable {estimate : Estimate.Result}

theorem fill_hours {part : String} {a : Amount} (ha : a.Within 75)
    (hpart : field? estimate.breakdown.document part = some (Weights.amountValue a)) :
    ∃ text, (Piece.hours part).fill estimate.document = .ok text := by
  obtain ⟨text, htext⟩ := hours_of_within ha
  have hbreakdown : fieldOf estimate.document breakdownField =
      .ok (.obj estimate.breakdown.document) := rfl
  have hfilled : (hours (Weights.amountValue a)).mapError Fault.hours = .ok text := by
    rw [htext]
    rfl
  exact ⟨text, by simpa [Piece.fill, hbreakdown, partOf, Value.get?, hpart, bind, Except.bind]
    using hfilled⟩

/-- The units of an estimate can be listed. -/
theorem fill_units (estimate : Estimate.Result) :
    ∃ text, (Piece.elements "contract_units" "none").fill estimate.document = .ok text := by
  have hunits : fieldOf estimate.document "contract_units" =
      .ok (.arr (estimate.units.map .str)) := rfl
  by_cases hnone : (Value.arr (estimate.units.map .str)).isEmpty = true
  · exact ⟨"none", by simp [Piece.fill, hunits, hnone, bind, Except.bind]⟩
  · exact ⟨_, by simp [Piece.fill, hunits, hnone, bind, Except.bind, Value.elements?]; rfl⟩

/-- Each format has a report for an estimate that can be written. -/
theorem render_ok (format : Format) (h : estimate.Writable) :
    ∃ text, render format (.obj estimate.document) = .ok text := by
  have hbase := fill_hours (h.base.mono (by decide)) (rfl : field? _ "base_time" = _)
  have hcomplexity :=
    fill_hours (h.complexity.mono (by decide)) (rfl : field? _ "complexity_time" = _)
  have hupgrade :=
    fill_hours (h.upgradeability.mono (by decide)) (rfl : field? _ "upgradeability_time" = _)
  have htotal := fill_hours h.total (rfl : field? _ "total" = _)
  have hfixed : ∀ text, ∃ filled, (Piece.fixed text).fill estimate.document = .ok filled :=
    fun text => ⟨text, rfl⟩
  cases format with
  | json => exact ⟨_, rfl⟩
  | text =>
    have hpieces : ∀ piece ∈ textLayout, ∃ text, piece.fill estimate.document = .ok text := by
      simp only [textLayout, List.forall_mem_cons]
      exact ⟨hfixed _, hbase, hfixed _, hcomplexity, hfixed _, hupgrade, hfixed _, htotal,
        hfixed _, by simp⟩
    exact fillAll_ok hpieces
  | markdown =>
    have hpieces : ∀ piece ∈ pageLayout, ∃ text, piece.fill estimate.document = .ok text := by
      simp only [pageLayout, List.forall_mem_cons]
      exact ⟨hfixed _, ⟨_, rfl⟩, hfixed _, ⟨_, rfl⟩, hfixed _, ⟨_, rfl⟩, hfixed _, ⟨_, rfl⟩,
        hfixed _, fill_units estimate, hfixed _, hbase, hfixed _, hcomplexity, hfixed _, hupgrade,
        hfixed _, htotal, hfixed _, by simp⟩
    exact fillAll_ok hpieces

end Report

end AuditHours
