import AuditHours.Proofs.Weights.Correcting

/-!
The violations of a refused overlay. Merging an overlay into a table fails with the list of all that
is wrong with the merged document, each violation once and in the order of the fields. Correcting
one leaf outside the thresholds takes its violation from the list and leaves the others as they
are, and the merge succeeds when none is left.
-/
namespace AuditHours.Weights

open Number Json Validation

/-! ### Lists of violations -/

section

variable {layout : Layout} {rule : Rule} {base merged : Value} {found more : List Violation}

theorem Lists.nodup (h : Lists layout rule base merged found) :
    (found.map Violation.location).Nodup :=
  List.pairwise_map.mpr (h.ordered.imp fun hearlier => hearlier.ne)

/-- No place on a list lies at or below another one. -/
theorem Lists.eq_of_below (h : Lists layout rule base merged found) {v other : Violation}
    (hv : v ∈ found) (hother : other ∈ found) (hbelow : v.location <+: other.location) :
    other = v := by
  have hforward : found.Pairwise fun v other => v.location <+: other.location → other = v :=
    h.ordered.imp fun hearlier hbelow => absurd hbelow hearlier.apart.1
  have hbackward : found.Pairwise fun v other => other.location <+: v.location → v = other :=
    h.ordered.imp fun hearlier hbelow => absurd hbelow hearlier.apart.2
  exact hforward.forall_of_forall_of_flip (fun _ _ _ => rfl) hbackward hv hother hbelow

/-- A list is known from what is on it. -/
theorem Lists.eq_of_mem_iff (h : Lists layout rule base merged found)
    (hordered : more.Pairwise fun v other => Earlier base merged v.location other.location)
    (hmem : ∀ v, v ∈ more ↔ v ∈ found) : more = found := by
  have hdistinct : ∀ {list : List Violation},
      (list.Pairwise fun v other => Earlier base merged v.location other.location) → list.Nodup :=
    fun hlist => hlist.imp fun hearlier heq => hearlier.ne (by rw [heq])
  have hperm := (List.perm_ext_iff_of_nodup (hdistinct hordered) (hdistinct h.ordered)).mpr hmem
  refine List.Perm.eq_of_pairwise ?_ hordered h.ordered hperm
  intro v other _ _ hearlier hlater
  exact absurd hlater hearlier.asymm

/-- Where all that is wrong stays wrong but at one place, and the order of places is the same, the
list loses what it has for this place. -/
theorem Lists.eq_of_removed {other : Value} {before after : List Violation} {v : Violation}
    (h : Lists layout rule base merged (before ++ v :: after))
    (hother : Lists layout rule base other more)
    (hearlier : ∀ {first second}, Earlier base merged first second → Earlier base other first second)
    (hviolated : ∀ w, (Wrong layout base other w ∨ Breaks layout rule base other w) ↔
      (Wrong layout base merged w ∨ Breaks layout rule base merged w) ∧ w.location ≠ v.location) :
    before ++ after = more := by
  have hplaces : v.location ∉ (before ++ after).map Violation.location := by
    have hnodup := h.nodup
    rw [List.map_append, List.map_cons, List.nodup_middle, ← List.map_append] at hnodup
    exact (List.nodup_cons.mp hnodup).1
  refine hother.eq_of_mem_iff ?_ fun w => ?_
  · have hsub : List.Sublist (before ++ after) (before ++ v :: after) :=
      List.Sublist.append_left (List.sublist_cons_self _ _) before
    exact (h.ordered.sublist hsub).imp hearlier
  · rw [hother.mem_iff, hviolated, ← h.mem_iff, List.perm_middle.mem_iff, List.mem_cons]
    constructor
    · exact fun hw => ⟨Or.inr hw, fun heq => hplaces (heq ▸ List.mem_map_of_mem hw)⟩
    · rintro ⟨rfl | hw, hne⟩
      · exact absurd rfl hne
      · exact hw

/-- At a group nothing is wrong that a rule could say. -/
theorem Wrong.ne_rule {v : Violation} {fields : Fields} (hv : Wrong layout base merged v)
    (hgroup : base.at? v.location = some (.obj fields)) (text : String) : v.reason ≠ .rule text := by
  cases hv with
  | leaf hleaf => exact absurd (Option.some.inj (hleaf.symm.trans hgroup)) amountValue_ne_obj
  | group | unknown => simp

end

/-! ### Merging -/

def Table.ownDocument (table : Table) : Value := .obj table.weights.document

/-- The document that merging an overlay into a table reads. -/
def Table.mergedDocument (table : Table) (overlay : Fields) : Value :=
  .obj (overlayFields table.weights.document overlay)

/-- A merge is refused with a list of violations, or succeeds if the list is empty. -/
def Table.MergesBut (table : Table) (overlay : Value) : List Violation → Prop
  | [] => ∃ merged, table.merge overlay = .ok merged
  | first :: more => table.merge overlay = .error (.violations (first :: more))

section

variable {table : Table} {overlay : Fields} {found : List Violation}

theorem Table.merge_lists (hsome : overlay ≠ []) (hkeyed : (Value.obj overlay).Keyed) :
    ∃ found, Lists tableLayout Misordered table.ownDocument (table.mergedDocument overlay) found ∧
      table.MergesBut (.obj overlay) found := by
  have hgiven : ∀ v, some (Value.obj overlay) = some v → v.Keyed := by simpa using hkeyed
  obtain ⟨found, hreport, hlists⟩ := reports table.weights (some (.obj overlay)) hgiven
  rw [laid_obj] at hreport hlists
  refine ⟨found, hlists, ?_⟩
  have hfound : (read (.obj (overlayFields table.weights.document overlay))).violations = found := by
    simpa [Violation.under, read] using hreport []
  subst hfound
  unfold MergesBut merge
  rw [if_neg (by simpa [Value.isEmpty] using hsome)]
  cases hread : read (.obj (overlayFields table.weights.document overlay)) with
  | valid | invalid => simp [Checked.violations, hread]

theorem keyed_document (w : Weights Amount) : (Value.obj w.document).Keyed := by
  have hamount : ∀ a, (amountValue a).Keyed := fun a =>
    Value.keyed_of_ne_obj fun fields => amountValue_ne_obj
  have hwhole : ∀ n, (Value.int n).Keyed := fun n => hamount (.whole n)
  refine Value.keyed_obj (readsMembers.document_nodup w) ?_
  simp only [document, List.forall_mem_cons]
  refine ⟨Value.keyed_obj (Thresholds.readsMembers.document_nodup _) ?_,
    Value.keyed_obj (BaseTimes.readsMembers.document_nodup _) ?_,
    Value.keyed_obj (Factors.readsMembers.document_nodup _) ?_, by simp⟩
  · simp [Thresholds.document, hwhole]
  · simp [BaseTimes.document, hamount]
  · simp only [Factors.document, List.forall_mem_cons]
    refine ⟨hamount _, hwhole _, hamount _, hamount _, hamount _, hamount _,
      Value.keyed_obj (Upgradeability.readsMembers.document_nodup _) ?_, by simp⟩
    simp [Upgradeability.document, hamount]

structure HoldsBounds (merged : Value) (t : Thresholds) : Prop where
  small : ∃ v, merged.at? ["sizeThresholds", "small"] = some v ∧ Reads .bound v (.whole t.small)
  medium : ∃ v, merged.at? ["sizeThresholds", "medium"] = some v ∧ Reads .bound v (.whole t.medium)

/-- What the list of a refused merge holds. -/
structure ReportsViolations (table : Table) (overlay : Fields) (found : List Violation) : Prop where
  ne_nil : found ≠ []
  /-- On the list is each leaf that is refused, each group that is no object, each key that a group
  does not have, and the order of the thresholds if it is broken, and nothing else. -/
  mem_iff : ∀ v, v ∈ found ↔
    Wrong tableLayout table.ownDocument (table.mergedDocument overlay) v ∨
      Breaks tableLayout Misordered table.ownDocument (table.mergedDocument overlay) v
  once : (found.map Violation.location).Nodup
  hidden : ∀ v ∈ found, ∀ other ∈ found, v.location <+: other.location → other = v
  order_iff : ∀ text, ⟨["sizeThresholds"], .rule text⟩ ∈ found ↔
    (∀ v ∈ found, ["sizeThresholds"] <+: v.location → v = ⟨["sizeThresholds"], .rule text⟩) ∧
    ∃ t, HoldsBounds (table.mergedDocument overlay) t ∧ t.medium ≤ t.small ∧ text = t.orderText
  ordered : found.Pairwise fun v other =>
    Earlier table.ownDocument (table.mergedDocument overlay) v.location other.location
  /-- Where one leaf outside the thresholds is corrected, its violation goes and the others stay as
  they are. -/
  corrected : ∀ before path reason after a w new, found = before ++ ⟨path, reason⟩ :: after →
    table.ownDocument.at? path = some (amountValue a) → path.head? ≠ some "sizeThresholds" →
    Reads (kindAt path) w new →
      table.MergesBut ((Value.obj overlay).replaceAt path w) (before ++ after)

theorem order_iff_of_lists
    (h : Lists tableLayout Misordered table.ownDocument (table.mergedDocument overlay) found)
    (text : String) : ⟨["sizeThresholds"], .rule text⟩ ∈ found ↔
      (∀ v ∈ found, ["sizeThresholds"] <+: v.location → v = ⟨["sizeThresholds"], .rule text⟩) ∧
      ∃ t, HoldsBounds (table.mergedDocument overlay) t ∧ t.medium ≤ t.small ∧
        text = t.orderText := by
  have hgroup : table.ownDocument.at? ["sizeThresholds"] =
      some (.obj table.weights.sizeThresholds.document) := rfl
  have hat : ∀ {given key}, (table.mergedDocument overlay).at? ["sizeThresholds"] =
      some (.obj given) →
        (table.mergedDocument overlay).at? ["sizeThresholds", key] = field? given key := by
    intro given key hgiven
    change (table.mergedDocument overlay).at? (["sizeThresholds"] ++ [key]) = _
    rw [Value.at?_append, hgiven, Option.bind_some, Value.at?_obj_cons]
    cases field? given key <;> rfl
  constructor
  · intro hmem
    refine ⟨fun v hv hbelow => h.eq_of_below hmem hv hbelow, ?_⟩
    rcases (h.mem_iff _).mp hmem with hwrong | ⟨⟨_, given, -, hvalue, hbroken⟩, -⟩
    · exact absurd rfl (hwrong.ne_rule hgroup text)
    · cases hbroken with
      | intro hsmall hmedium hreadSmall hreadMedium horder =>
        exact ⟨_, ⟨⟨_, (hat hvalue).trans hsmall, hreadSmall⟩,
          ⟨_, (hat hvalue).trans hmedium, hreadMedium⟩⟩, horder, rfl⟩
  · rintro ⟨halone, t, ⟨⟨small, hsmall, hreadSmall⟩, ⟨medium, hmedium, hreadMedium⟩⟩, horder, rfl⟩
    obtain ⟨given, hgiven⟩ : ∃ given, (table.mergedDocument overlay).at? ["sizeThresholds"] =
        some (.obj given) := by
      obtain ⟨fields, under, hfields, hunder, hsmall⟩ := Value.at?_cons_eq_some hsmall
      obtain ⟨given, _, rfl, -⟩ := Value.at?_cons_eq_some hsmall
      exact ⟨given, by rw [hfields, Value.at?_obj_cons, hunder]; rfl⟩
    refine (h.mem_iff _).mpr (Or.inr ⟨⟨_, given, hgroup, hgiven, ?_⟩, fun v hv hbelow => ?_⟩)
    · exact Misordered.intro ((hat hgiven).symm.trans hsmall) ((hat hgiven).symm.trans hmedium)
        hreadSmall hreadMedium horder
    · -- what is wrong there would be on the list, and is no broken order
      obtain rfl := halone v ((h.mem_iff v).mpr (Or.inl hv)) hbelow
      exact absurd rfl (hv.ne_rule hgroup t.orderText)

/-- A leaf that is refused is one that the overlay names: what a valid table holds is read again. -/
theorem at?_overlay_of_refused (hvalid : table.weights.Valid) (hkeyed : (Value.obj overlay).Keyed)
    {path : List String} {a : Amount} {u : Value} {reason : Reason}
    (hleaf : table.ownDocument.at? path = some (amountValue a))
    (hu : (table.mergedDocument overlay).at? path = some u)
    (hrefused : Refused (kindAt path) u reason) : (Value.obj overlay).at? path = some u := by
  have hlaid : (laid table.ownDocument (some (.obj overlay))).at? path = some u := by
    rw [Table.ownDocument, laid_obj]
    exact hu
  rcases at?_laid_leaf hkeyed hleaf hlaid with hgiven | rfl
  · exact hgiven
  · obtain ⟨again, hagain, -⟩ := hvalid.sound path a hleaf
    exact absurd hrefused hagain.not_refused

/-- An overlay in which a leaf is corrected is an overlay again, and the merged document is
corrected at the leaf. -/
theorem exists_corrected (hkeyed : (Value.obj overlay).Keyed) {path : List String} {a : Amount}
    {u w : Value} (hpath : path ≠ []) (hleaf : table.ownDocument.at? path = some (amountValue a))
    (hgiven : (Value.obj overlay).at? path = some u) (hw : ∀ fields, w ≠ .obj fields) :
    ∃ corrected, (Value.obj overlay).replaceAt path w = .obj corrected ∧ corrected ≠ [] ∧
      (Value.obj corrected).Keyed ∧
      table.mergedDocument corrected = (table.mergedDocument overlay).replaceAt path w := by
  obtain ⟨_, corrected, hoverlay, hreplaced, hkeys⟩ :=
    @Value.at?_replaceAt_of_above _ u w path [] hgiven List.nil_prefix hpath.symm
  obtain rfl := Value.obj.inj (Option.some.inj hoverlay)
  have hcorrected : (Value.obj overlay).replaceAt path w = .obj corrected :=
    Option.some.inj hreplaced
  refine ⟨corrected, hcorrected, ?_, ?_, ?_⟩
  · rintro rfl
    obtain rfl : overlay = [] := by simpa using hkeys.symm
    cases path with
    | nil => exact hpath rfl
    | cons key rest => simp [field?] at hgiven
  · exact hcorrected ▸ hkeyed.replaceAt (Value.keyed_of_ne_obj hw)
  · have hlaid := @laid_replaceAt _ _ w _ _ _ (keyed_document table.weights) hkeyed hleaf hgiven
    rwa [hcorrected, laid_obj, laid_obj] at hlaid

theorem corrected_of_lists (hvalid : table.weights.Valid) (hkeyed : (Value.obj overlay).Keyed)
    {before after : List Violation} {path : List String} {reason : Reason} {a new : Amount}
    {w : Value} (h : Lists tableLayout Misordered table.ownDocument (table.mergedDocument overlay)
      (before ++ ⟨path, reason⟩ :: after))
    (hleaf : table.ownDocument.at? path = some (amountValue a))
    (hfirst : path.head? ≠ some "sizeThresholds") (hreads : Reads (kindAt path) w new) :
    table.MergesBut ((Value.obj overlay).replaceAt path w) (before ++ after) := by
  have hpath : path ≠ [] := by
    rintro rfl
    exact amountValue_ne_obj (Option.some.inj hleaf).symm
  have hwrong : Wrong tableLayout table.ownDocument (table.mergedDocument overlay)
      ⟨path, reason⟩ := by
    rcases (h.mem_iff ⟨path, reason⟩).mp (by simp) with hwrong | ⟨⟨_, _, hgroup, -⟩, -⟩
    · exact hwrong
    · exact absurd (Option.some.inj (hleaf.symm.trans hgroup)) amountValue_ne_obj
  obtain ⟨u, hu, hrefused⟩ := hwrong.refused hleaf
  have hgiven := at?_overlay_of_refused hvalid hkeyed hleaf hu hrefused
  obtain ⟨corrected, hcorrected, hsome, hcorrectedKeyed, hmerged⟩ :=
    exists_corrected hkeyed hpath hleaf hgiven hreads.ne_obj
  obtain ⟨found, hlists, hmerge⟩ := @Table.merge_lists table corrected hsome hcorrectedKeyed
  rw [hmerged] at hlists
  have hsame : before ++ after = found := h.eq_of_removed hlists
    (fun hearlier => (alikeBut_replaceAt hleaf hu).earlier_iff.mpr hearlier)
    fun v => violated_replaceAt hleaf hu hfirst hpath fun _ => hreads.not_refused
  rw [hcorrected, hsame]
  exact hmerge

end

/-- A merge that refuses an overlay reports all that is wrong with the merged document, each
violation once and in the order of the fields, and its failure holds this list. -/
theorem merge_reports_every_violation {table : Table} {overlay : Fields} {fault : OverlayFault}
    (hvalid : table.weights.Valid) (hkeyed : (Value.obj overlay).Keyed)
    (h : table.merge (.obj overlay) = .error fault) :
    ∃ found, fault = .violations found ∧
      (∀ source, overlayFailure source fault =
        .config (if source.isEmpty then "<overlay>" else source) (.violations found)) ∧
      ReportsViolations table overlay found := by
  have hsome : overlay ≠ [] := by
    rintro rfl
    simp [Table.merge, Value.isEmpty] at h
  obtain ⟨found, hlists, hmerge⟩ := @Table.merge_lists table overlay hsome hkeyed
  cases found with
  | nil =>
    obtain ⟨merged, hmerged⟩ := hmerge
    simp [h] at hmerged
  | cons first more =>
    obtain rfl : fault = .violations (first :: more) := Except.error.inj (h.symm.trans hmerge)
    refine ⟨first :: more, rfl, fun _ => rfl, by simp, hlists.mem_iff, hlists.nodup, ?_,
      order_iff_of_lists hlists, hlists.ordered, ?_⟩
    · exact fun v hv other hother hbelow => hlists.eq_of_below hv hother hbelow
    · intro before path reason after a w new hfound hleaf hfirst hreads
      rw [hfound] at hlists
      exact corrected_of_lists hvalid hkeyed hlists hleaf hfirst hreads

/-- An overlay with faults at every level: equal thresholds, a list for a group, a word and a
negative number for hours, and two unknown keys. -/
def faultyOverlay : Fields :=
  [("extra", .null),
    ("complexityFactors", .obj
      [("upgradeability", .obj [("proxy", .int 1), ("adminRights", .int (-1))]),
        ("functionTime", .str "much")]),
    ("baseTimes", .arr []), ("sizeThresholds", .obj [("small", .int 1000)])]

def faults : List Violation :=
  [⟨["sizeThresholds"], .rule (Thresholds.orderText ⟨1000, 1000⟩)⟩,
    ⟨["baseTimes"], .notGroup "BaseTimes"⟩,
    ⟨["complexityFactors", "functionTime"], .numberText⟩,
    ⟨["complexityFactors", "upgradeability", "adminRights"], .belowZero⟩,
    ⟨["complexityFactors", "upgradeability", "proxy"], .unknownKey⟩,
    ⟨["extra"], .unknownKey⟩]

/-- The faulty overlay is refused over the built-in table with these faults. -/
theorem merge_reports_every_violation_faulty : builtIn.Valid ∧ (Value.obj faultyOverlay).Keyed ∧
    Table.standard.merge (.obj faultyOverlay) = .error (.violations faults) ∧
    ReportsViolations .standard faultyOverlay faults := by
  have hkeyed : (Value.obj faultyOverlay).Keyed := by
    have hplain : ∀ v : Value, (∀ fields, v ≠ .obj fields) → v.Keyed :=
      fun v => Value.keyed_of_ne_obj
    refine Value.keyed_obj (by decide) ?_
    simp only [faultyOverlay, List.forall_mem_cons]
    refine ⟨hplain _ (by simp), Value.keyed_obj (by decide) ?_, hplain _ (by simp),
      Value.keyed_obj (by decide) ?_, by simp⟩
    · simp only [List.forall_mem_cons]
      refine ⟨Value.keyed_obj (by decide) ?_, hplain _ (by simp), by simp⟩
      simpa using ⟨hplain (.int 1) (by simp), hplain (.int (-1)) (by simp)⟩
    · simpa using hplain (.int 1000) (by simp)
  have hmerge : Table.standard.merge (.obj faultyOverlay) = .error (.violations faults) := rfl
  obtain ⟨found, hfound, -, hreports⟩ :=
    @merge_reports_every_violation .standard _ _ valid_builtIn hkeyed hmerge
  obtain rfl := OverlayFault.violations.inj hfound
  exact ⟨valid_builtIn, hkeyed, hmerge, hreports⟩

end AuditHours.Weights
