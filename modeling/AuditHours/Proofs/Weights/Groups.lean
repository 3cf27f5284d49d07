import AuditHours.Proofs.Weights.Members

/-!
The groups of the table under overlays. The built-in table stays the same when it is read again, and
each group of a table lays overlays leaf by leaf. The group of the thresholds does so under the rule
that the small one stays below the medium one.
-/
namespace AuditHours.Weights

open Number Json Validation

/-! ### The built-in table -/

section

variable {kinds : List String → Kind}

theorem sound_wholeHours (hkind : kinds [] = .weight) {n : Int}
    (h : (ofInt? n).any (fun x => (parts x).isAtLeastZero && (parts x).toInt? == some n) = true) :
    Sound kinds (amountValue (.whole n)) := by
  refine sound_amountValue ?_
  rw [hkind]
  cases hreal : ofInt? n with
  | none => simp [hreal] at h
  | some x =>
    simp only [hreal, Option.any_some, Bool.and_eq_true, beq_iff_eq] at h
    refine ⟨.real x, Reads.weight ?_ h.1, SameNumber.toReal h.2⟩
    simp [amountValue, realNumber, hreal]

theorem sound_of_reads {a : Amount} (h : Reads (kinds []) (amountValue a) a) :
    Sound kinds (amountValue a) := sound_amountValue h.rereads

end

/-- The built-in table stays the same when it is read again. -/
theorem sound_builtIn : Sound kindAt (.obj builtIn.document) := by
  refine sound_obj ?_
  simp only [document, List.forall_mem_cons]
  refine ⟨sound_obj ?_, sound_obj ?_, sound_obj ?_, by simp⟩
  · simp only [builtIn, Thresholds.document, List.forall_mem_cons]
    exact ⟨@sound_of_reads _ (.whole 200) (Reads.bound rfl (by decide)),
      @sound_of_reads _ (.whole 1000) (Reads.bound rfl (by decide)), by simp⟩
  · simp only [builtIn, BaseTimes.document, List.forall_mem_cons]
    exact ⟨sound_wholeHours rfl (by decide), sound_wholeHours rfl (by decide),
      sound_wholeHours rfl (by decide), by simp⟩
  · simp only [builtIn, Factors.document, List.forall_mem_cons]
    refine ⟨sound_of_reads (Reads.weight rfl (by decide)),
      @sound_of_reads _ (.whole 10) (Reads.count rfl (by decide)),
      sound_wholeHours rfl (by decide), sound_wholeHours rfl (by decide),
      sound_wholeHours rfl (by decide), sound_wholeHours rfl (by decide), sound_obj ?_, by simp⟩
    simp only [Upgradeability.document, List.forall_mem_cons]
    exact ⟨sound_wholeHours rfl (by decide), sound_wholeHours rfl (by decide),
      sound_wholeHours rfl (by decide), sound_wholeHours rfl (by decide),
      sound_wholeHours rfl (by decide), by simp⟩

/-! ### The groups of the table -/

def Member.hours {kinds : List String → Kind} {α : Type} (key : Key) (default : Amount)
    (field : α → Amount) (hkind : kinds [key.document] = .weight)
    (hsound : Sound (below key.document kinds) (amountValue default)) : Member kinds α :=
  ⟨key, readWeight, default, amountValue, field, unruled, lays_weight hkind, hsound⟩

def Member.bound {kinds : List String → Kind} {α : Type} (key : Key) (default : Int)
    (field : α → Int) (hkind : kinds [key.document] = .bound)
    (hsound : Sound (below key.document kinds) (.int default)) : Member kinds α :=
  ⟨key, scalar Validation.bound, default, Value.int, field, unruled, lays_bound hkind, hsound⟩

namespace BaseTimes

def members : List (Member (below "baseTimes" kindAt) (BaseTimes Amount)) :=
  let hsound : Sound (below "baseTimes" kindAt) (.obj builtIn.baseTimes.document) :=
    sound_builtIn.member rfl
  [.hours ⟨"small", "small"⟩ builtIn.baseTimes.small BaseTimes.small rfl (hsound.member rfl),
    .hours ⟨"medium", "medium"⟩ builtIn.baseTimes.medium BaseTimes.medium rfl (hsound.member rfl),
    .hours ⟨"large", "large"⟩ builtIn.baseTimes.large BaseTimes.large rfl (hsound.member rfl)]

theorem readsMembers : ReadsMembers members BaseTimes.document readFields where
  document_eq _ := rfl
  nodup := by decide
  succeeds_iff location fields := by
    simp [readFields, members, Member.hours, Member.read, and_assoc]
  valid location fields x hx := by
    simp only [readFields, Checked.seq_eq_valid, Checked.map_eq_valid] at hx
    obtain ⟨_, large, ⟨_, medium, ⟨small, hsmall, rfl⟩, hmedium, rfl⟩, hlarge, rfl⟩ := hx
    simp only [members, List.forall_mem_cons]
    exact ⟨hsmall, hmedium, hlarge, by simp⟩
  congr location fields fields' hsame := by
    simp only [members, List.forall_mem_cons, Member.read, Member.hours] at hsame
    obtain ⟨hsmall, hmedium, hlarge, -⟩ := hsame
    simp only [readFields, hsmall, hmedium, hlarge]

theorem lays : Lays (below "baseTimes" kindAt) unruled BaseTimes.read fun t => .obj t.document := by
  refine lays_group readsMembers ?_
  intro old overlay
  simp [members, Member.hours, unruled]

end BaseTimes

namespace Upgradeability

def members :
    List (Member (below "upgradeability" (below "complexityFactors" kindAt))
      (Upgradeability Amount)) :=
  let standard := builtIn.complexityFactors.upgradeability
  let hsound : Sound (below "upgradeability" (below "complexityFactors" kindAt))
      (.obj standard.document) := (sound_builtIn.member rfl).member rfl
  [.hours ⟨"proxyPattern", "proxy_pattern"⟩ standard.proxyPattern Upgradeability.proxyPattern rfl
      (hsound.member rfl),
    .hours ⟨"storageLayout", "storage_layout"⟩ standard.storageLayout Upgradeability.storageLayout
      rfl (hsound.member rfl),
    .hours ⟨"adminRights", "admin_rights"⟩ standard.adminRights Upgradeability.adminRights rfl
      (hsound.member rfl),
    .hours ⟨"initialization", "initialization"⟩ standard.initialization
      Upgradeability.initialization rfl (hsound.member rfl),
    .hours ⟨"interContractConsistency", "inter_contract_consistency"⟩
      standard.interContractConsistency Upgradeability.interContractConsistency rfl
      (hsound.member rfl)]

theorem readsMembers : ReadsMembers members Upgradeability.document readFields where
  document_eq _ := rfl
  nodup := by decide
  succeeds_iff location fields := by
    simp [readFields, members, Member.hours, Member.read, and_assoc]
  valid location fields x hx := by
    simp only [readFields, Checked.seq_eq_valid, Checked.map_eq_valid] at hx
    obtain ⟨_, consistency, ⟨_, initialization, ⟨_, rights, ⟨_, layout, ⟨proxy, hproxy, rfl⟩,
      hlayout, rfl⟩, hrights, rfl⟩, hinitialization, rfl⟩, hconsistency, rfl⟩ := hx
    simp only [members, List.forall_mem_cons]
    exact ⟨hproxy, hlayout, hrights, hinitialization, hconsistency, by simp⟩
  congr location fields fields' hsame := by
    simp only [members, List.forall_mem_cons, Member.read, Member.hours] at hsame
    obtain ⟨hproxy, hlayout, hrights, hinitialization, hconsistency, -⟩ := hsame
    simp only [readFields, hproxy, hlayout, hrights, hinitialization, hconsistency]

theorem lays : Lays (below "upgradeability" (below "complexityFactors" kindAt)) unruled
    Upgradeability.read fun u => .obj u.document := by
  refine lays_group readsMembers ?_
  intro old overlay
  simp [members, Member.hours, unruled]

end Upgradeability

namespace Factors

def members : List (Member (below "complexityFactors" kindAt) (Factors Amount)) :=
  let standard := builtIn.complexityFactors
  let hsound : Sound (below "complexityFactors" kindAt) (.obj standard.document) :=
    sound_builtIn.member rfl
  [.hours ⟨"functionTime", "function_time"⟩ standard.functionTime Factors.functionTime rfl
      (hsound.member rfl),
    ⟨⟨"baseFunctionCount", "base_function_count"⟩, scalar count, standard.baseFunctionCount,
      Value.int, Factors.baseFunctionCount, unruled, lays_count rfl, hsound.member rfl⟩,
    .hours ⟨"externalCallTime", "external_call_time"⟩ standard.externalCallTime
      Factors.externalCallTime rfl (hsound.member rfl),
    .hours ⟨"importTimePerImport", "import_time_per_import"⟩ standard.importTimePerImport
      Factors.importTimePerImport rfl (hsound.member rfl),
    .hours ⟨"importTimeFlatRate", "import_time_flat_rate"⟩ standard.importTimeFlatRate
      Factors.importTimeFlatRate rfl (hsound.member rfl),
    .hours ⟨"assemblyTime", "assembly_time"⟩ standard.assemblyTime Factors.assemblyTime rfl
      (hsound.member rfl),
    ⟨⟨"upgradeability", "upgradeability"⟩, Upgradeability.read, standard.upgradeability,
      fun u => .obj u.document, Factors.upgradeability, unruled, Upgradeability.lays,
      hsound.member rfl⟩]

theorem readsMembers : ReadsMembers members Factors.document readFields where
  document_eq _ := rfl
  nodup := by decide
  succeeds_iff location fields := by
    simp [readFields, members, Member.hours, Member.read, and_assoc]
  valid location fields x hx := by
    simp only [readFields, Checked.seq_eq_valid, Checked.map_eq_valid] at hx
    obtain ⟨_, upgrades, ⟨_, assembly, ⟨_, flat, ⟨_, perImport, ⟨_, calls, ⟨_, count,
      ⟨functions, hfunctions, rfl⟩, hcount, rfl⟩, hcalls, rfl⟩, hperImport, rfl⟩, hflat, rfl⟩,
      hassembly, rfl⟩, hupgrades, rfl⟩ := hx
    simp only [members, List.forall_mem_cons]
    exact ⟨hfunctions, hcount, hcalls, hperImport, hflat, hassembly, hupgrades, by simp⟩
  congr location fields fields' hsame := by
    simp only [members, List.forall_mem_cons, Member.read, Member.hours] at hsame
    obtain ⟨hfunctions, hcount, hcalls, hperImport, hflat, hassembly, hupgrades, -⟩ := hsame
    simp only [readFields, hfunctions, hcount, hcalls, hperImport, hflat, hassembly, hupgrades]

theorem lays : Lays (below "complexityFactors" kindAt) unruled Factors.read
    fun f => .obj f.document := by
  refine lays_group readsMembers ?_
  intro old overlay
  simp [members, Member.hours, unruled]

end Factors

/-! ### The order of the thresholds -/

def boundAfter (before : Int) : Option Value → Option Int
  | some v => (wholeNumber v).toOption
  | none => some before

namespace Thresholds

/-- The thresholds that overlays of the bounds leave are in increasing order. -/
def Rising (t : Thresholds) (small medium : Option Value) : Prop :=
  ∃ smallAfter mediumAfter, boundAfter t.small small = some smallAfter ∧
    boundAfter t.medium medium = some mediumAfter ∧ smallAfter < mediumAfter

def members : List (Member (below "sizeThresholds" kindAt) Thresholds) :=
  let hsound : Sound (below "sizeThresholds" kindAt) (.obj builtIn.sizeThresholds.document) :=
    sound_builtIn.member rfl
  [.bound ⟨"small", "small"⟩ 200 Thresholds.small rfl (hsound.member rfl),
    .bound ⟨"medium", "medium"⟩ 1000 Thresholds.medium rfl (hsound.member rfl)]

/-- The group of the bounds, whatever their order. -/
def readBounds : List String → Value → Checked Thresholds :=
  group "SizeThresholds" [⟨"small", "small"⟩, ⟨"medium", "medium"⟩] readFields

theorem readsMembers : ReadsMembers members Thresholds.document readFields where
  document_eq _ := rfl
  nodup := by decide
  succeeds_iff location fields := by
    simp [readFields, members, Member.bound, Member.read]
  valid location fields x hx := by
    simp only [readFields, Checked.seq_eq_valid, Checked.map_eq_valid] at hx
    obtain ⟨_, medium, ⟨small, hsmall, rfl⟩, hmedium, rfl⟩ := hx
    simp only [members, List.forall_mem_cons]
    exact ⟨hsmall, hmedium, by simp⟩
  congr location fields fields' hsame := by
    simp only [members, List.forall_mem_cons, Member.read, Member.bound] at hsame
    obtain ⟨hsmall, hmedium, -⟩ := hsame
    simp only [readFields, hsmall, hmedium]

theorem lays_readBounds : Lays (below "sizeThresholds" kindAt) unruled readBounds
    fun t => .obj t.document := by
  refine lays_group readsMembers ?_
  intro old overlay
  simp [members, Member.bound, unruled]

variable {old new : Thresholds} {overlay : Option Value} {location : List String} {v : Value}

theorem read_eq_valid : Thresholds.read location v = .valid new ↔
    readBounds location v = .valid new ∧ new.small < new.medium := by
  unfold Thresholds.read
  rw [Checked.ensure_eq_valid, decide_eq_true_iff]
  exact Iff.rfl

theorem boundAfter_of_follows {key : String} {before after : Int} {result : Fields}
    (h : Follows (below "sizeThresholds" kindAt) (.obj old.document) overlay (.obj result))
    (hbefore : field? old.document key = some (.int before))
    (hafter : field? result key = some (.int after)) :
    boundAfter before (overlay.bind (·.get? key)) = some after := by
  have hat : ∀ v : Value, v.at? [key] = v.get? key := fun v => by simp [Value.at?]
  obtain ⟨new, hnew, hnamed, hleft⟩ := h [key] (.whole before) (by rw [hat]; exact hbefore)
  rw [hat] at hnew
  obtain rfl : new = .whole after :=
    amountValue_inj (Option.some.inj (hnew.symm.trans hafter))
  simp only [hat] at hnamed hleft
  cases hgiven : overlay.bind (·.get? key) with
  | none =>
    have hsame := hleft hgiven
    cases hsame
    rfl
  | some v =>
    have hreads := hnamed v hgiven
    have hread : wholeNumber v = .ok after := by
      cases hkind : below "sizeThresholds" kindAt [key] with
      | bound | count =>
        rw [hkind] at hreads
        cases hreads
        assumption
      | weight =>
        rw [hkind] at hreads
        cases hreads
    simp [boundAfter, hread, Except.toOption]

theorem lays : Lays (below "sizeThresholds" kindAt)
    (fun t overlay => t.Rising (overlay.bind (·.get? "small")) (overlay.bind (·.get? "medium")))
    Thresholds.read fun t => .obj t.document := by
  have hafter : ∀ {old new : Thresholds} {overlay : Option Value} {location : List String},
      Sound (below "sizeThresholds" kindAt) (.obj old.document) →
      (∀ v, overlay = some v → v.Keyed) →
      readBounds location (laid (.obj old.document) overlay) = .valid new →
        boundAfter old.small (overlay.bind (·.get? "small")) = some new.small ∧
          boundAfter old.medium (overlay.bind (·.get? "medium")) = some new.medium := by
    intro old new overlay location hold hkeyed hnew
    have hfollows := lays_readBounds.follows hold hkeyed hnew
    exact ⟨boundAfter_of_follows hfollows rfl rfl, boundAfter_of_follows hfollows rfl rfl⟩
  refine ⟨?_, ?_, ?_⟩
  · intro old overlay location hold hkeyed
    constructor
    · rintro ⟨new, hnew⟩
      obtain ⟨hbounds, hrising⟩ := read_eq_valid.mp hnew
      obtain ⟨hfits, -⟩ := (lays_readBounds.succeeds_iff hold hkeyed).mp ⟨new, hbounds⟩
      obtain ⟨hsmall, hmedium⟩ := hafter hold hkeyed hbounds
      exact ⟨hfits, new.small, new.medium, hsmall, hmedium, hrising⟩
    · -- the bounds that are read are those that the rule speaks of
      rintro ⟨hfits, small, medium, hsmall, hmedium, hrising⟩
      obtain ⟨new, hbounds⟩ :=
        (lays_readBounds.succeeds_iff hold hkeyed).mpr ⟨hfits, trivial⟩
      obtain ⟨hsmallNew, hmediumNew⟩ := hafter hold hkeyed hbounds
      rw [hsmallNew, Option.some.injEq] at hsmall
      rw [hmediumNew, Option.some.injEq] at hmedium
      exact ⟨new, read_eq_valid.mpr ⟨hbounds, by rw [hsmall, hmedium]; exact hrising⟩⟩
  · intro old new overlay location hold hkeyed hnew
    exact lays_readBounds.follows hold hkeyed (read_eq_valid.mp hnew).1
  · intro location v new hnew
    exact lays_readBounds.sound (read_eq_valid.mp hnew).1

end Thresholds

end AuditHours.Weights
