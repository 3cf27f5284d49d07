import AuditHours.Proofs.Weights.Composition

/-!
The document of a table as an overlay. Every table has the same keys in its document, so laying the
document of one table over that of another gives the first document back. Reading it gives the same
numbers, whatever table it is merged into; and where each number has been read before, as in a table
that comes of a merge, it gives the very same table.
-/
namespace AuditHours.Weights

open Number Json Validation

/-- A document of one value, laid over that of another one, hides it. -/
def Covers {α : Type} (document : α → Value) : Prop :=
  ∀ old new, laid (document old) (some (document new)) = document new

theorem covers_amountValue {α : Type} (amount : α → Amount) :
    Covers fun x => amountValue (amount x) := by
  intro old new
  rw [laid_amountValue, Option.getD_some]

/-- The document of a group hides that of another one if its members do so. -/
theorem covers_group {α : Type} {kinds : List String → Kind} {members : List (Member kinds α)}
    {document : α → Fields} {readFields : List String → Fields → Checked α}
    (h : ReadsMembers members document readFields) (hmembers : ∀ m ∈ members, Covers m.document) :
    Covers fun x => .obj (document x) := by
  intro old new
  have hkeys : (document old).map Prod.fst = (document new).map Prod.fst :=
    (h.document_keys old).trans (h.document_keys new).symm
  have hmerged : (overlayFields (document old) (document new)).map Prod.fst =
      (document old).map Prod.fst := by
    rw [keys_overlayFields (h.document_nodup new), filter_of_known fun key hkey => hkeys ▸ hkey,
      List.append_nil]
  rw [laid_obj]
  refine congrArg Value.obj (fields_ext (hmerged.trans hkeys) ?_ fun key => ?_)
  · rw [hmerged]
    exact h.document_nodup old
  · rw [field?_overlayFields_eq (h.document_nodup new)]
    by_cases hkey : key ∈ (document new).map Prod.fst
    · rw [h.document_eq, List.map_map, List.mem_map] at hkey
      obtain ⟨m, hm, rfl⟩ := hkey
      have hold := h.field old hm
      have hnew := h.field new hm
      have hcovers := hmembers m hm (m.field old) (m.field new)
      simp only [Function.comp_apply, Member.entry, hold, hnew, joined, hcovers]
    · rw [field?_eq_none_iff.mpr hkey, field?_eq_none_iff.mpr (hkeys ▸ hkey)]
      rfl

theorem BaseTimes.covers : Covers fun t : BaseTimes Amount => .obj t.document := by
  refine covers_group readsMembers ?_
  simp only [members, List.forall_mem_cons]
  have hhours : Covers amountValue := covers_amountValue id
  exact ⟨hhours, hhours, hhours, by simp⟩

theorem Upgradeability.covers : Covers fun u : Upgradeability Amount => .obj u.document := by
  refine covers_group readsMembers ?_
  simp only [members, List.forall_mem_cons]
  have hhours : Covers amountValue := covers_amountValue id
  exact ⟨hhours, hhours, hhours, hhours, hhours, by simp⟩

theorem Factors.covers : Covers fun f : Factors Amount => .obj f.document := by
  refine covers_group readsMembers ?_
  simp only [members, List.forall_mem_cons]
  have hhours : Covers amountValue := covers_amountValue id
  exact ⟨hhours, covers_amountValue .whole, hhours, hhours, hhours, hhours, Upgradeability.covers,
    by simp⟩

theorem Thresholds.covers : Covers fun t : Thresholds => .obj t.document := by
  refine covers_group readsMembers ?_
  simp only [members, List.forall_mem_cons]
  exact ⟨covers_amountValue .whole, covers_amountValue .whole, by simp⟩

/-- The document of a table, laid over that of another one, hides it. -/
theorem covers : Covers fun w : Weights Amount => .obj w.document := by
  refine covers_group readsMembers ?_
  simp only [members, List.forall_mem_cons]
  exact ⟨Thresholds.covers, BaseTimes.covers, Factors.covers, by simp⟩

/-- Each number of a table stands in another one, as it is or as the real number of its size. -/
def SameNumbers (w again : Weights Amount) : Prop :=
  ∀ path a, (Value.obj w.document).at? path = some (amountValue a) →
    ∃ b, (Value.obj again.document).at? path = some (amountValue b) ∧ SameNumber a b

/-- The document of a valid table can be read, and reading it changes no number. -/
theorem read_document {w : Weights Amount} (h : w.Valid) :
    ∃ again, read (.obj w.document) = .valid again ∧ SameNumbers w again := by
  have horder : w.KeepsOrder none :=
    ⟨w.sizeThresholds.small, w.sizeThresholds.medium, rfl, rfl, h.rising⟩
  have hkeyed : ∀ v : Value, none = some v → v.Keyed := nofun
  obtain ⟨again, hagain⟩ := (lays.succeeds_iff h.sound hkeyed).mpr ⟨nofun, horder⟩
  refine ⟨again, hagain, ?_⟩
  intro path a ha
  obtain ⟨b, hb, -, hsame⟩ := lays.follows h.sound hkeyed hagain path a ha
  exact ⟨b, hb, hsame rfl⟩

/-- A table that has been read from a merged document is read from its own document as it is. -/
theorem read_document_of_merged {table again : Table} {overlay : Fields} (hsome : overlay ≠ [])
    (hkeyed : (Value.obj overlay).Keyed) (h : table.merge (.obj overlay) = .ok again) :
    read (.obj again.weights.document) = .valid again.weights ∧ again = .overlaid again.weights := by
  obtain ⟨weights, hread, rfl⟩ := (Table.merge_eq_ok hsome).mp h
  have hfirst : ∀ v, some (Value.obj overlay) = some v → v.Keyed := by simpa using hkeyed
  have hsame := @joins _ _ _ none _ hfirst nofun hread []
  rw [joined_none] at hsame
  exact ⟨hsame.trans hread, rfl⟩

/-- How the document of a table is merged into other tables. -/
structure RoundTrips (again merged : Table) : Prop where
  merges : ∀ table : Table, table.merge (.obj again.weights.document) = .ok merged
  numbers : SameNumbers again.weights merged.weights
  /-- The result is the very same table if that has come of merging an overlay that is not empty. -/
  exact : ∀ (table : Table) (overlay : Fields), overlay ≠ [] → (Value.obj overlay).Keyed →
    table.merge (.obj overlay) = .ok again → merged = again

/-- The document of every valid table, merged into any table, gives the table back. The built-in
table and all that comes of merging overlays into it are valid. -/
theorem document_round_trip :
    (∀ again : Table, again.weights.Valid → ∃ merged, RoundTrips again merged) ∧
    ∀ table, Relation.ReflTransGen Table.MergesTo .standard table → table.weights.Valid := by
  refine ⟨?_, fun _ => valid_of_merges⟩
  intro again hvalid
  obtain ⟨weights, hread, hnumbers⟩ := read_document hvalid
  refine ⟨.overlaid weights, ?_, hnumbers, ?_⟩
  · intro table
    refine (Table.merge_eq_ok (by simp [document])).mpr ⟨weights, ?_, rfl⟩
    rwa [covers table.weights again.weights]
  · intro table overlay hsome hkeyed hmerge
    obtain ⟨hagain, htable⟩ := read_document_of_merged hsome hkeyed hmerge
    rw [hread] at hagain
    rw [htable, Checked.valid.inj hagain]

/-- An overlay with a threshold beyond the words of a machine and a negative zero. -/
def extremeOverlay : Fields :=
  [("sizeThresholds", .obj [("medium", .int 100000000000000000000)]),
    ("baseTimes", .obj [("small", .real (-0.0))])]

/-- The built-in table comes back with real hours. The table that the extreme overlay makes of it
comes back as it is. -/
theorem document_round_trip_extreme : ∃ plain again merged,
    builtIn.Valid ∧ RoundTrips .standard plain ∧
    plain.weights.baseTimes.small = .real 5 ∧
    Table.standard.merge (.obj extremeOverlay) = .ok again ∧ again.weights.Valid ∧
    RoundTrips again merged ∧ merged = again ∧
    again.weights.sizeThresholds.medium = 100000000000000000000 ∧
    again.weights.baseTimes.small = .real (-0.0) := by
  have hkeyed : (Value.obj extremeOverlay).Keyed := by
    refine Value.keyed_obj (by decide) ?_
    simp only [extremeOverlay, List.forall_mem_cons]
    refine ⟨Value.keyed_obj (by decide) ?_, Value.keyed_obj (by decide) ?_, by simp⟩
    · simpa using Value.keyed_of_ne_obj (by simp)
    · simpa using Value.keyed_of_ne_obj (by simp)
  obtain ⟨again, hmerge, hmedium, hsmall⟩ :
      ∃ again, Table.standard.merge (.obj extremeOverlay) = .ok again ∧
        again.weights.sizeThresholds.medium = 100000000000000000000 ∧
        again.weights.baseTimes.small = .real (-0.0) := ⟨_, rfl, rfl, rfl⟩
  obtain ⟨read, hread, hreal⟩ : ∃ plain, Table.standard.merge (.obj builtIn.document) = .ok plain ∧
      plain.weights.baseTimes.small = .real 5 := ⟨_, rfl, rfl⟩
  have hvalid : again.weights.Valid :=
    document_round_trip.2 again (.single ⟨.obj extremeOverlay, hmerge⟩)
  obtain ⟨plain, hplain⟩ := document_round_trip.1 .standard valid_builtIn
  obtain ⟨merged, hmerged⟩ := document_round_trip.1 again hvalid
  obtain rfl : plain = read := by
    have hsame := hplain.merges .standard
    rw [Table.weights, hread] at hsame
    exact (Except.ok.inj hsame).symm
  exact ⟨plain, again, merged, valid_builtIn, hplain, hreal, hmerge, hvalid, hmerged,
    hmerged.exact .standard extremeOverlay (by simp [extremeOverlay]) hkeyed hmerge, hmedium, hsmall⟩

end AuditHours.Weights
