import AuditHours.Proofs.Weights.Groups
import AuditHours.Weights.File
import Mathlib.Logic.Relation

/-!
Merging an overlay into a table. A merge succeeds exactly if the overlay fits the document of the
table and leaves the small threshold below the medium one. Then each leaf that the overlay names is
what the overlay has for it, and every other leaf is the same number as before. So no sequence of
merges leads from the built-in table to thresholds in the wrong order or to a negative weight.
-/
namespace AuditHours

open Number Json Validation

namespace Number

def Amount.AtLeastZero : Amount → Prop
  | .whole n => 0 ≤ n
  | .real x => (parts x).isAtLeastZero = true

theorem Parts.toInt?_nonneg {p : Parts} {n : Int} (hp : p.isAtLeastZero = true)
    (hn : p.toInt? = some n) : 0 ≤ n := by
  cases p with
  | nan | infinite negative => simp [toInt?] at hn
  | finite negative mantissa exponent =>
    unfold toInt? at hn
    dsimp only at hn
    split at hn
    · rw [← Option.some.inj hn]
      by_cases hsign : negative = true
      · obtain rfl : mantissa = 0 := by simpa [isAtLeastZero, hsign] using hp
        simp [magnitude]
      · simp only [hsign]
        exact Int.natCast_nonneg _
    · simp at hn

end Number

namespace Weights

/-! ### The whole table -/

def members : List (Member kindAt (Weights Amount)) :=
  [⟨⟨"sizeThresholds", "size_thresholds"⟩, Thresholds.read, builtIn.sizeThresholds,
      fun t => .obj t.document, Weights.sizeThresholds, _, Thresholds.lays,
      sound_builtIn.member rfl⟩,
    ⟨⟨"baseTimes", "base_times"⟩, BaseTimes.read, builtIn.baseTimes, fun t => .obj t.document,
      Weights.baseTimes, unruled, BaseTimes.lays, sound_builtIn.member rfl⟩,
    ⟨⟨"complexityFactors", "complexity_factors"⟩, Factors.read, builtIn.complexityFactors,
      fun f => .obj f.document, Weights.complexityFactors, unruled, Factors.lays,
      sound_builtIn.member rfl⟩]

def KeepsOrder (w : Weights Amount) (overlay : Option Value) : Prop :=
  w.sizeThresholds.Rising (overlay.bind (·.at? ["sizeThresholds", "small"]))
    (overlay.bind (·.at? ["sizeThresholds", "medium"]))

theorem readsMembers : ReadsMembers members document readFields where
  document_eq _ := rfl
  nodup := by decide
  succeeds_iff location fields := by
    simp [readFields, members, Member.read, and_assoc]
  valid location fields x hx := by
    simp only [readFields, Checked.seq_eq_valid, Checked.map_eq_valid] at hx
    obtain ⟨_, factors, ⟨_, times, ⟨thresholds, hthresholds, rfl⟩, htimes, rfl⟩, hfactors, rfl⟩ :=
      hx
    simp only [members, List.forall_mem_cons]
    exact ⟨hthresholds, htimes, hfactors, by simp⟩
  congr location fields fields' hsame := by
    simp only [members, List.forall_mem_cons, Member.read] at hsame
    obtain ⟨hthresholds, htimes, hfactors, -⟩ := hsame
    simp only [readFields, hthresholds, htimes, hfactors]

theorem lays : Lays kindAt KeepsOrder (group "WeightConfig" keys readFields)
    fun w => .obj w.document := by
  refine lays_group readsMembers ?_
  intro old overlay
  have hat : ∀ key, overlay.bind (·.at? ["sizeThresholds", key]) =
      (overlay.bind (·.get? "sizeThresholds")).bind (·.get? key) := by
    intro key
    simp [Value.at?, Option.bind_assoc]
  simp [members, unruled, KeepsOrder, hat]

/-- A table that reading some document gives. -/
def Valid (w : Weights Amount) : Prop := ∃ v, read v = .valid w

theorem valid_builtIn : builtIn.Valid := ⟨.obj [], rfl⟩

theorem Valid.sound {w : Weights Amount} (h : w.Valid) : Sound kindAt (.obj w.document) := by
  obtain ⟨v, hv⟩ := h
  exact lays.sound hv

theorem Valid.rising {w : Weights Amount} (h : w.Valid) :
    w.sizeThresholds.small < w.sizeThresholds.medium := by
  obtain ⟨v, hv⟩ := h
  obtain ⟨fields, -, hfields, -⟩ := group_eq_valid.mp hv
  simp only [readFields, Checked.seq_eq_valid, Checked.map_eq_valid] at hfields
  obtain ⟨_, factors, ⟨_, times, ⟨thresholds, hthresholds, rfl⟩, -, rfl⟩, -, rfl⟩ := hfields
  rcases Key.read_eq_valid hthresholds with rfl | ⟨location, v, hv⟩
  · exact (by decide : builtIn.sizeThresholds.small < builtIn.sizeThresholds.medium)
  · exact (Thresholds.read_eq_valid.mp hv).2

/-- A number that rereads is at least zero: each kind of leaf has a range that begins there or
above. -/
theorem Rereads.atLeastZero {kind : Kind} {a : Amount} (h : Rereads kind a) : a.AtLeastZero := by
  obtain ⟨again, hreads, hsame⟩ := h
  cases hsame with
  | refl =>
    cases hreads with
    | bound _ hrange => exact Int.le_of_lt hrange
    | count _ hrange => exact hrange
    | weight _ hrange => exact hrange
  | toReal hsize =>
    cases hreads with
    | weight _ hrange => exact Parts.toInt?_nonneg hrange hsize

theorem Rereads.bound_pos {n : Int} (h : Rereads .bound (.whole n)) : 0 < n := by
  obtain ⟨again, hreads, hsame⟩ := h
  cases hreads with
  | bound hread hrange =>
    cases hsame
    exact hrange

structure InOrder (w : Weights Amount) : Prop where
  small_positive : 0 < w.sizeThresholds.small
  rising : w.sizeThresholds.small < w.sizeThresholds.medium
  weights : ∀ path a, (Value.obj w.document).at? path = some (amountValue a) → a.AtLeastZero

theorem Valid.inOrder {w : Weights Amount} (h : w.Valid) : w.InOrder where
  small_positive := Rereads.bound_pos
    (h.sound ["sizeThresholds", "small"] (.whole w.sizeThresholds.small) rfl)
  rising := h.rising
  weights := fun path a ha => (h.sound path a ha).atLeastZero

/-! ### Merging -/

def Table.MergesTo (table merged : Table) : Prop := ∃ overlay, table.merge overlay = .ok merged

theorem Table.MergesTo.valid {table merged : Table} (h : table.MergesTo merged)
    (hvalid : table.weights.Valid) : merged.weights.Valid := by
  obtain ⟨overlay, hmerge⟩ := h
  unfold merge at hmerge
  split at hmerge
  · obtain rfl : table = merged := Except.ok.inj hmerge
    exact hvalid
  · split at hmerge
    · split at hmerge
      · next weights hread =>
        obtain rfl : Table.overlaid weights = merged := Except.ok.inj hmerge
        exact ⟨_, hread⟩
      · simp at hmerge
    · simp at hmerge

/-- A table that comes of merging overlays into the built-in one is valid. -/
theorem valid_of_merges {table : Table}
    (h : Relation.ReflTransGen Table.MergesTo .standard table) : table.weights.Valid := by
  induction h with
  | refl => exact valid_builtIn
  | tail _ hmerge ih => exact hmerge.valid ih

/-- How an overlay is merged into a table. -/
structure MergesLeafByLeaf (table : Table) (overlay : Value) : Prop where
  succeeds_iff : (∃ merged, table.merge overlay = .ok merged) ↔
    Fits kindAt (.obj table.weights.document) overlay ∧
      table.weights.sizeThresholds.Rising (overlay.at? ["sizeThresholds", "small"])
        (overlay.at? ["sizeThresholds", "medium"])
  /-- Each leaf that the overlay names is what its value there reads as, and every other leaf is the
  same number as in the table. -/
  follows : ∀ merged, table.merge overlay = .ok merged →
    ∀ path old, (Value.obj table.weights.document).at? path = some (amountValue old) →
      ∃ new, (Value.obj merged.weights.document).at? path = some (amountValue new) ∧
        (∀ v, overlay.at? path = some v → Reads (kindAt path) v new) ∧
        (overlay.at? path = none → SameNumber old new)
  refused : ∀ fault, table.merge overlay = .error fault → ∃ first more, ∀ source,
    overlayFailure source fault =
      .config (if source.isEmpty then "<overlay>" else source) (.violations (first :: more))

section

variable {table merged : Table} {overlay : Fields}

theorem Table.merge_eq_ok (hsome : overlay ≠ []) :
    table.merge (.obj overlay) = .ok merged ↔ ∃ weights,
      read (laid (.obj table.weights.document) (some (.obj overlay))) = .valid weights ∧
        merged = .overlaid weights := by
  unfold merge
  rw [if_neg (by simpa [Value.isEmpty] using hsome), laid_obj]
  cases hread : read (.obj (overlayFields table.weights.document overlay)) with
  | valid weights => simp [hread, eq_comm]
  | invalid first more => simp [hread]

theorem Table.merge_eq_error (hsome : overlay ≠ []) {fault : OverlayFault}
    (h : table.merge (.obj overlay) = .error fault) :
    ∃ first more, fault = .violations (first :: more) := by
  unfold merge at h
  rw [if_neg (by simpa [Value.isEmpty] using hsome)] at h
  cases hread : read (.obj (overlayFields table.weights.document overlay)) with
  | valid weights => simp [hread] at h
  | invalid first more =>
    simp only [hread, Except.error.injEq] at h
    exact ⟨first, more, h.symm⟩

theorem mergesLeafByLeaf (hvalid : table.weights.Valid) (hsome : overlay ≠ [])
    (hkeyed : (Value.obj overlay).Keyed) : MergesLeafByLeaf table (.obj overlay) := by
  have hgiven : ∀ v, some (Value.obj overlay) = some v → v.Keyed := by
    intro v hv
    rw [← Option.some.inj hv]
    exact hkeyed
  refine ⟨?_, ?_, ?_⟩
  · have hsucceeds :
        (read (laid (.obj table.weights.document) (some (.obj overlay)))).Succeeds ↔ _ :=
      lays.succeeds_iff hvalid.sound hgiven
    constructor
    · rintro ⟨merged, hmerged⟩
      obtain ⟨weights, hread, -⟩ := (Table.merge_eq_ok hsome).mp hmerged
      obtain ⟨hfits, horder⟩ := hsucceeds.mp ⟨weights, hread⟩
      exact ⟨hfits _ rfl, horder⟩
    · rintro ⟨hfits, horder⟩
      obtain ⟨weights, hread⟩ := hsucceeds.mpr ⟨fun v hv => Option.some.inj hv ▸ hfits, horder⟩
      exact ⟨.overlaid weights, (Table.merge_eq_ok hsome).mpr ⟨weights, hread, rfl⟩⟩
  · intro merged hmerged
    obtain ⟨weights, hread, rfl⟩ := (Table.merge_eq_ok hsome).mp hmerged
    exact lays.follows hvalid.sound hgiven hread
  · intro fault hfault
    obtain ⟨first, more, rfl⟩ := Table.merge_eq_error hsome hfault
    exact ⟨first, more, fun _ => rfl⟩

end

/-- Merging is leaf by leaf: into any valid table an overlay is merged that fits it and keeps the
order of the thresholds, and no other. So whatever is merged into the built-in table, one overlay
after the other, its thresholds stay above zero and in order, and no weight becomes negative. -/
theorem merge_leaf_by_leaf :
    (∀ (table : Table) (overlay : Fields), table.weights.Valid → overlay ≠ [] →
      (Value.obj overlay).Keyed → MergesLeafByLeaf table (.obj overlay)) ∧
    ∀ table, Relation.ReflTransGen Table.MergesTo .standard table → table.weights.InOrder := by
  refine ⟨?_, ?_⟩
  · intro table overlay hvalid hsome hkeyed
    exact mergesLeafByLeaf hvalid hsome hkeyed
  · intro table hmerges
    exact (valid_of_merges hmerges).inOrder

def partialOverlay : Fields :=
  [("sizeThresholds", .obj [("small", .str " 300 ")]),
    ("complexityFactors", .obj [("upgradeability", .obj [("proxyPattern", .real 2.5)])])]

/-- The partial overlay is merged into the built-in table and replaces what it names, and what comes
of it is in order. -/
theorem merge_leaf_by_leaf_partial : partialOverlay ≠ [] ∧ (Value.obj partialOverlay).Keyed ∧
    MergesLeafByLeaf .standard (.obj partialOverlay) ∧
    ∃ merged, Table.standard.merge (.obj partialOverlay) = .ok merged ∧
      merged.weights.sizeThresholds = ⟨300, 1000⟩ ∧
      merged.weights.complexityFactors.upgradeability.proxyPattern = .real 2.5 ∧
      merged.weights.InOrder := by
  have hkeyed : (Value.obj partialOverlay).Keyed := by
    refine Value.keyed_obj (by decide) ?_
    simp only [partialOverlay, List.forall_mem_cons]
    refine ⟨Value.keyed_obj (by decide) ?_, Value.keyed_obj (by decide) ?_, by simp⟩
    · simpa using Value.keyed_of_ne_obj (by simp)
    · simpa using Value.keyed_obj (by decide) (by simpa using Value.keyed_of_ne_obj (by simp))
  obtain ⟨merged, hmerge, hsmall, hproxy⟩ :
      ∃ merged, Table.standard.merge (.obj partialOverlay) = .ok merged ∧
        merged.weights.sizeThresholds = ⟨300, 1000⟩ ∧
        merged.weights.complexityFactors.upgradeability.proxyPattern = .real 2.5 :=
    ⟨_, rfl, rfl, rfl⟩
  have hreached : Relation.ReflTransGen Table.MergesTo .standard merged :=
    .single ⟨.obj partialOverlay, hmerge⟩
  exact ⟨by simp [partialOverlay], hkeyed,
    merge_leaf_by_leaf.1 .standard partialOverlay valid_builtIn (by simp [partialOverlay]) hkeyed,
    merged, hmerge, hsmall, hproxy, merge_leaf_by_leaf.2 merged hreached⟩

end Weights

end AuditHours
