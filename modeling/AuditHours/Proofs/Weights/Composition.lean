import AuditHours.Proofs.Weights.LeafByLeaf

/-!
Overlays one after the other. Laying a second overlay over what a first one has made of a table
comes to the same as joining the two overlays first and laying them over the table at once. This
rests on two facts: a number that has been read is read again as it is, and an overlay that a group
has taken holds objects exactly where the table does, so objects are merged at the same places
either way.
-/
namespace AuditHours.Weights

open Number Json Validation

/-! ### Overlays joined -/

/-- Two overlays as one, the later laid over the earlier; each of them may be missing. -/
def joined : Option Value → Option Value → Option Value
  | none, later => later
  | some earlier, later => some (laid earlier later)

variable {base given : Fields} {key : String} {v : Value}

theorem joined_none (earlier : Option Value) : joined earlier none = earlier := by
  cases earlier <;> rfl

@[simp]
theorem overlayValue_none (v : Value) : overlayValue none v = v := by
  cases v <;> simp [overlayValue]

theorem overlayValue_of_ne_obj (under : Option Value) (h : ∀ fields, v ≠ .obj fields) :
    overlayValue under v = v := by
  cases v with
  | obj fields => exact absurd rfl (h fields)
  | null | bool | int | real | str | arr => simp [overlayValue]

/-- Over anything but an object the later value stands. -/
theorem laid_of_ne_obj {under : Value} (h : ∀ fields, under ≠ .obj fields) (v : Value) :
    laid under (some v) = v := by
  cases under with
  | obj fields => exact absurd rfl (h fields)
  | null | bool | int | real | str | arr => cases v <;> simp [laid, overlayValue]

/-- The merged object has at each key what the two objects have there, joined. -/
theorem field?_overlayFields_eq (hgiven : (given.map Prod.fst).Nodup) :
    field? (overlayFields base given) key = joined (field? base key) (field? given key) := by
  cases hbase : field? base key with
  | some under => exact field?_overlayFields hgiven hbase
  | none =>
    change _ = field? given key
    induction given generalizing base with
    | nil => simpa [overlayFields, field?] using hbase
    | cons first rest ih =>
      obtain ⟨hfirst, hrest⟩ := List.nodup_cons.mp hgiven
      unfold overlayFields overlayField
      by_cases hkey : first.1 = key
      · subst hkey
        have hwritten := field?_setField_self base first.1
          (overlayValue (field? base first.1) first.2)
        rw [field?_overlayFields hrest hwritten, field?_eq_none_iff.mpr hfirst, hbase]
        simp [laid, field?]
      · rw [ih hrest ((field?_setField_of_ne _ _ (Ne.symm hkey)).trans hbase)]
        simp [field?, hkey]

theorem filter_of_known {own keys : List String} (h : ∀ key ∈ keys, key ∈ own) :
    keys.filter (! own.contains ·) = [] := by
  rw [List.filter_eq_nil_iff]
  intro key hkey
  simpa using h key hkey

/-- The merged object has the keys of the first object and behind them the new ones of the second.
-/
theorem keys_overlayFields (hgiven : (given.map Prod.fst).Nodup) :
    (overlayFields base given).map Prod.fst =
      base.map Prod.fst ++ (given.map Prod.fst).filter (! (base.map Prod.fst).contains ·) := by
  induction given generalizing base with
  | nil => simp [overlayFields]
  | cons first rest ih =>
    obtain ⟨hfirst, hrest⟩ := List.nodup_cons.mp hgiven
    unfold overlayFields overlayField
    by_cases hmem : first.1 ∈ base.map Prod.fst
    · rw [ih hrest, keys_setField_of_mem hmem]
      simp [hmem]
    · have hsame : (rest.map Prod.fst).filter
            (! (base.map Prod.fst ++ [first.1]).contains ·) =
          (rest.map Prod.fst).filter (! (base.map Prod.fst).contains ·) := by
        refine List.filter_congr fun other hother => ?_
        have hne : other ≠ first.1 := fun heq => hfirst (heq ▸ hother)
        simp [hne]
      rw [ih hrest, setField_of_not_mem hmem, List.map_append, List.map_singleton, hsame]
      simp [hmem]

theorem nodup_overlayFields (hbase : (base.map Prod.fst).Nodup)
    (hgiven : (given.map Prod.fst).Nodup) : ((overlayFields base given).map Prod.fst).Nodup := by
  rw [keys_overlayFields hgiven]
  refine List.nodup_append.mpr ⟨hbase, hgiven.filter _, ?_⟩
  rintro key hkey other hother rfl
  simp [hkey] at hother

/-- An overlay without the keys of an object adds its fields behind those of the object. -/
theorem overlayFields_append (hgiven : (given.map Prod.fst).Nodup)
    (hapart : ∀ key ∈ base.map Prod.fst, key ∉ given.map Prod.fst) :
    overlayFields base given = base ++ given := by
  induction given generalizing base with
  | nil => simp [overlayFields]
  | cons first rest ih =>
    obtain ⟨hfirst, hrest⟩ := List.nodup_cons.mp hgiven
    have hnew : first.1 ∉ base.map Prod.fst := by
      intro hkey
      exact hapart first.1 hkey (by simp)
    unfold overlayFields overlayField
    rw [field?_eq_none_iff.mpr hnew, overlayValue_none, setField_of_not_mem hnew, ih hrest]
    · simp
    · intro key hkey hrestKey
      rw [List.map_append, List.mem_append] at hkey
      rcases hkey with hkey | hkey
      · exact hapart key hkey (by simp [hrestKey])
      · obtain rfl : key = first.1 := by simpa using hkey
        exact hfirst hrestKey

theorem setField_of_field? (h : field? base key = some v) : setField base key v = base := by
  induction base with
  | nil => simp [field?] at h
  | cons first rest ih =>
    unfold setField
    by_cases hkey : first.1 = key
    · have hv : first.2 = v := by simpa [field?, hkey] using h
      rw [if_pos hkey, ← hkey, ← hv]
    · rw [if_neg hkey, ih (by simpa [field?, hkey] using h)]

/-- A value laid over itself stays as it is. -/
theorem overlayValue_self (v : Value) (hkeyed : v.Keyed) : overlayValue (some v) v = v := by
  match v with
  | .null | .bool _ | .int _ | .real _ | .str _ | .arr _ => simp [overlayValue]
  | .obj fields =>
    have hsame : ∀ given : Fields, (∀ field ∈ given, field ∈ fields) →
        overlayFields fields given = fields := by
      intro given hgiven
      induction given with
      | nil => simp [overlayFields]
      | cons first rest ih =>
        have hmem : first ∈ fields := hgiven first (List.mem_cons_self ..)
        have hfield : field? fields first.1 = some first.2 :=
          (field?_eq_some_iff hkeyed.nodup).mpr hmem
        have hinner := overlayValue_self first.2 (hkeyed.member hfield)
        unfold overlayFields overlayField
        rw [hfield, hinner, setField_of_field? hfield]
        exact ih fun field hfield => hgiven field (List.mem_cons_of_mem _ hfield)
    simp only [overlayValue, hsame fields fun _ h => h]
termination_by sizeOf v
decreasing_by
  have hsize := List.sizeOf_lt_of_mem hmem
  cases first
  simp_all
  omega

/-! ### Readers under two overlays -/

/-- A reader that has taken a first overlay makes the same of a second one, laid over its own
document, as of the two overlays joined. -/
def Joins {α : Type} (reader : List String → Value → Checked α) (document : α → Value) : Prop :=
  ∀ ⦃old mid : α⦄ ⦃first second : Option Value⦄ ⦃location : List String⦄,
    (∀ v, first = some v → v.Keyed) → (∀ v, second = some v → v.Keyed) →
    reader location (laid (document old) first) = .valid mid →
    ∀ place, reader place (laid (document mid) second) =
      reader place (laid (document old) (joined first second))

section

variable {α : Type} {kinds : List String → Kind}

/-- A scalar joins overlays if it reads its own document again as it is. -/
theorem joins_scalar {read : Value → Except Reason α} (amount : α → Amount)
    (hagain : ∀ {v x}, read v = .ok x → read (amountValue (amount x)) = .ok x)
    (hobj : ∀ {fields x}, read (.obj fields) ≠ .ok x) :
    Joins (scalar read) fun x => amountValue (amount x) := by
  intro old mid first second location _ _ hfirst place
  rw [laid_amountValue] at hfirst
  have hread := scalar_eq_valid.mp hfirst
  rw [laid_amountValue, laid_amountValue]
  cases second with
  | none =>
    have hmid : scalar read place (amountValue (amount mid)) = .valid mid :=
      scalar_eq_valid.mpr (hagain hread)
    have hold : scalar read place (first.getD (amountValue (amount old))) = .valid mid :=
      scalar_eq_valid.mpr hread
    rw [joined_none, Option.getD_none, hmid, hold]
  | some v =>
    cases first with
    | none => rfl
    | some u =>
      have hu : ∀ fields, u ≠ .obj fields := by
        rintro fields rfl
        exact hobj hread
      change scalar read place v = scalar read place (laid u (some v))
      rw [laid_of_ne_obj hu]

theorem joins_bound : Joins (scalar bound) Value.int := by
  refine joins_scalar Amount.whole ?_ ?_
  · intro v n h
    exact bound_eq_ok.mpr ⟨rfl, (bound_eq_ok.mp h).2⟩
  · intro fields n h
    simp [bound_eq_ok, wholeNumber] at h

theorem joins_count : Joins (scalar count) Value.int := by
  refine joins_scalar Amount.whole ?_ ?_
  · intro v n h
    exact count_eq_ok.mpr ⟨rfl, (count_eq_ok.mp h).2⟩
  · intro fields n h
    simp [count_eq_ok, wholeNumber] at h

theorem joins_weight : Joins readWeight amountValue := by
  have hweight : ∀ {v a}, (weight v).map Amount.real = .ok a ↔
      ∃ x, weight v = .ok x ∧ Amount.real x = a := by
    intro v a
    cases weight v <;> simp [Except.map]
  have hjoins : Joins (scalar fun v => (weight v).map Amount.real) fun a => amountValue (id a) := by
    refine joins_scalar id ?_ ?_
    · intro v a h
      obtain ⟨x, hx, rfl⟩ := hweight.mp h
      have hrange := (weight_eq_ok.mp hx).2
      exact hweight.mpr ⟨x, weight_eq_ok.mpr ⟨rfl, hrange⟩, rfl⟩
    · intro fields a h
      obtain ⟨x, hx, -⟩ := hweight.mp h
      simp [weight_eq_ok, realNumber] at hx
  exact hjoins

variable {name : String} {members : List (Member kinds α)} {document : α → Fields}
  {readFields : List String → Fields → Checked α}

theorem unknownKeys_merged (h : ReadsMembers members document readFields) (x : α) {given : Fields}
    (hgiven : (given.map Prod.fst).Nodup) :
    unknownKeys (members.map Member.key) (overlayFields (document x) given) =
      (given.map Prod.fst).filter
        (! ((members.map Member.key).map Key.document).contains ·) := by
  rw [h.unknownKeys_overlayFields, keys_overlayFields hgiven, h.document_keys, List.filter_append]
  simp [List.filter_filter]

/-- A group joins overlays if its members do. -/
theorem joins_group (h : ReadsMembers members document readFields)
    (hmembers : ∀ m ∈ members, Joins m.reader m.document) :
    Joins (group name (members.map Member.key) readFields) fun x => .obj (document x) := by
  intro old mid first second location hfirstKeyed hsecondKeyed hfirst place
  obtain ⟨earlier, hearlier, hknown, hread⟩ :=
    (group_laid_eq_valid (h.document_keys old)).mp hfirst
  have hkeyed : (Value.obj earlier).Keyed := by
    rcases hearlier with rfl | ⟨rfl, rfl⟩
    · exact hfirstKeyed _ rfl
    · exact Value.keyed_empty
  have hmerged : ∀ later : Fields, (Value.obj later).Keyed →
      group name (members.map Member.key) readFields place
          (.obj (overlayFields (document mid) later)) =
        group name (members.map Member.key) readFields place
          (.obj (overlayFields (document old) (overlayFields earlier later))) := by
    intro later hlater
    have hnodup := nodup_overlayFields hkeyed.nodup hlater.nodup
    have hfields : readFields place (overlayFields (document mid) later) =
        readFields place (overlayFields (document old) (overlayFields earlier later)) := by
      refine h.congr _ _ _ fun m hm => ?_
      have hmid := h.valid _ _ _ hread m hm
      rw [Member.read_merged hkeyed (h.field old hm)] at hmid
      have hlaterMember : ∀ v, field? later m.key.document = some v → v.Keyed :=
        fun v hv => hlater.member hv
      have hsame := hmembers m hm (fun v hv => hkeyed.member hv) hlaterMember hmid
        (place ++ [m.key.document])
      rw [Member.read_merged hlater (h.field mid hm), hsame, Member.read,
        Key.read_of_document (field?_overlayFields hnodup (h.field old hm)),
        field?_overlayFields_eq hlater.nodup]
    have hunknown : unknownKeys (members.map Member.key) (overlayFields (document mid) later) =
        unknownKeys (members.map Member.key)
          (overlayFields (document old) (overlayFields earlier later)) := by
      rw [unknownKeys_merged h mid hlater.nodup, unknownKeys_merged h old hnodup,
        keys_overlayFields hlater.nodup, List.filter_append, List.filter_filter]
      rw [h.document_keys] at hknown
      rw [filter_of_known hknown, List.nil_append]
      refine List.filter_congr fun key _ => ?_
      by_cases hkey : key ∈ earlier.map Prod.fst
      · rw [List.contains_iff_mem.mpr (hknown key hkey)]
        rfl
      · simp [hkey]
    simp only [group, hfields, hunknown]
  have hnothing : ∀ later : Fields, (Value.obj later).Keyed → overlayFields [] later = later :=
    fun later hlater => overlayFields_append hlater.nodup (by simp)
  cases second with
  | none =>
    -- no overlay is as good as an empty one
    have hsame := hmerged [] Value.keyed_empty
    rcases hearlier with rfl | ⟨rfl, rfl⟩
    · simpa [joined, laid, overlayFields, overlayValue] using hsame
    · simpa [joined, laid, overlayFields] using hsame
  | some v =>
    by_cases hobj : ∃ later, v = .obj later
    · obtain ⟨later, rfl⟩ := hobj
      have hlater := hsecondKeyed _ rfl
      have hsame := hmerged later hlater
      rcases hearlier with rfl | ⟨rfl, rfl⟩
      · simpa [joined] using hsame
      · simpa [joined, hnothing later hlater] using hsame
    · have hv : ∀ fields, v ≠ .obj fields := fun fields heq => hobj ⟨fields, heq⟩
      rcases hearlier with rfl | ⟨rfl, rfl⟩
      · simp [joined, laid, overlayValue_of_ne_obj _ hv]
      · simp [joined, laid, overlayValue_of_ne_obj _ hv]

end

/-! ### The groups of the table -/

theorem BaseTimes.joins : Joins BaseTimes.read fun t => .obj t.document := by
  refine joins_group readsMembers ?_
  simp only [members, List.forall_mem_cons]
  exact ⟨joins_weight, joins_weight, joins_weight, by simp⟩

theorem Upgradeability.joins : Joins Upgradeability.read fun u => .obj u.document := by
  refine joins_group readsMembers ?_
  simp only [members, List.forall_mem_cons]
  exact ⟨joins_weight, joins_weight, joins_weight, joins_weight, joins_weight, by simp⟩

theorem Factors.joins : Joins Factors.read fun f => .obj f.document := by
  refine joins_group readsMembers ?_
  simp only [members, List.forall_mem_cons]
  exact ⟨joins_weight, joins_count, joins_weight, joins_weight, joins_weight, joins_weight,
    Upgradeability.joins, by simp⟩

theorem Thresholds.joins_readBounds : Joins readBounds fun t => .obj t.document := by
  refine joins_group readsMembers ?_
  simp only [members, List.forall_mem_cons]
  exact ⟨joins_bound, joins_bound, by simp⟩

/-- The rule on the order of the thresholds looks at what has been read, so it is the same rule
either way. -/
theorem Thresholds.joins : Joins Thresholds.read fun t => .obj t.document := by
  intro old mid first second location hfirst hsecond hmid place
  have hbounds := joins_readBounds hfirst hsecond (read_eq_valid.mp hmid).1 place
  unfold readBounds at hbounds
  unfold Thresholds.read
  rw [hbounds]

theorem joins : Joins (group "WeightConfig" keys readFields) fun w => .obj w.document := by
  refine joins_group readsMembers ?_
  simp only [members, List.forall_mem_cons]
  exact ⟨Thresholds.joins, BaseTimes.joins, Factors.joins, by simp⟩

/-! ### Merging twice -/

/-- Once a first overlay has been merged into a table, merging a second one does the same as merging
the two overlays joined into the table, also where it is refused. Merging the first overlay again
changes nothing. -/
theorem overlays_compose {table merged : Table} {first second : Fields}
    (hfirst : (Value.obj first).Keyed) (hsecond : (Value.obj second).Keyed)
    (h : table.merge (.obj first) = .ok merged) :
    merged.merge (.obj second) = table.merge (.obj (overlayFields first second)) ∧
      merged.merge (.obj first) = .ok merged := by
  have hjoined : ∀ second : Fields, (Value.obj second).Keyed →
      merged.merge (.obj second) = table.merge (.obj (overlayFields first second)) := by
    intro second hsecond
    by_cases hnone : second = []
    · subst hnone
      rw [overlayFields, h]
      rfl
    by_cases hempty : first = []
    · subst hempty
      obtain rfl : table = merged := Except.ok.inj h
      rw [overlayFields_append hsecond.nodup (by simp), List.nil_append]
    have hsome : overlayFields first second ≠ [] := by
      intro heq
      have hkeys : (overlayFields first second).map Prod.fst = _ :=
        keys_overlayFields hsecond.nodup
      simp [heq, hempty] at hkeys
    obtain ⟨weights, hread, rfl⟩ := (Table.merge_eq_ok hempty).mp h
    have hkeyed : ∀ v ∈ some (Value.obj second), v.Keyed := by simpa using hsecond
    have hsame := joins (by simpa using hfirst) hkeyed hread []
    simp only [joined, laid_obj] at hsame
    have hfilled : ∀ fields : Fields, fields ≠ [] → (Value.obj fields).isEmpty = false := by
      intro fields hfields
      simp [Value.isEmpty, hfields]
    unfold Table.merge
    rw [if_neg (by simp [hfilled second hnone]), if_neg (by simp [hfilled _ hsome])]
    simp only [Table.weights, read, hsame]
  refine ⟨hjoined second hsecond, ?_⟩
  have hself : overlayFields first first = first := by
    have hvalue := overlayValue_self (.obj first) hfirst
    simpa [overlayValue] using hvalue
  rw [hjoined first hfirst, hself, h]

def loweringOverlay : Fields :=
  [("sizeThresholds", .obj [("small", .str " 100 ")]),
    ("complexityFactors", .obj [("upgradeability", .obj [("proxyPattern", .real 2.5)])])]

/-- An overlay whose medium threshold is below the built-in small one. -/
def narrowOverlay : Fields :=
  [("sizeThresholds", .obj [("medium", .int 150)]),
    ("complexityFactors", .obj [("baseFunctionCount", .bool true)])]

/-- The narrow overlay is refused over the built-in table. After the lowering one it is merged, and
what comes of it is what the two overlays joined make of the built-in table. -/
theorem overlays_compose_lowering : ∃ lowered narrowed,
    Table.standard.merge (.obj loweringOverlay) = .ok lowered ∧
      (Table.standard.merge (.obj narrowOverlay)).toOption.isNone ∧
      lowered.merge (.obj narrowOverlay) = .ok narrowed ∧
      Table.standard.merge (.obj (overlayFields loweringOverlay narrowOverlay)) = .ok narrowed ∧
      lowered.merge (.obj loweringOverlay) = .ok lowered ∧
      narrowed.weights.sizeThresholds = ⟨100, 150⟩ ∧
      narrowed.weights.complexityFactors.baseFunctionCount = 1 ∧
      narrowed.weights.complexityFactors.upgradeability.proxyPattern = .real 2.5 := by
  have hlowering : (Value.obj loweringOverlay).Keyed := by
    refine Value.keyed_obj (by decide) ?_
    simp only [loweringOverlay, List.forall_mem_cons]
    refine ⟨Value.keyed_obj (by decide) ?_, Value.keyed_obj (by decide) ?_, by simp⟩
    · simpa using Value.keyed_of_ne_obj (by simp)
    · simpa using Value.keyed_obj (by decide) (by simpa using Value.keyed_of_ne_obj (by simp))
  have hnarrow : (Value.obj narrowOverlay).Keyed := by
    refine Value.keyed_obj (by decide) ?_
    simp only [narrowOverlay, List.forall_mem_cons]
    refine ⟨Value.keyed_obj (by decide) ?_, Value.keyed_obj (by decide) ?_, by simp⟩
    · simpa using Value.keyed_of_ne_obj (by simp)
    · simpa using Value.keyed_of_ne_obj (by simp)
  obtain ⟨lowered, narrowed, hlowered, hnarrowed, hthresholds, hcount, hproxy⟩ :
      ∃ lowered narrowed, Table.standard.merge (.obj loweringOverlay) = .ok lowered ∧
        lowered.merge (.obj narrowOverlay) = .ok narrowed ∧
        narrowed.weights.sizeThresholds = ⟨100, 150⟩ ∧
        narrowed.weights.complexityFactors.baseFunctionCount = 1 ∧
        narrowed.weights.complexityFactors.upgradeability.proxyPattern = .real 2.5 :=
    ⟨_, _, rfl, rfl, rfl, rfl, rfl⟩
  obtain ⟨hjoined, hagain⟩ := overlays_compose hlowering hnarrow hlowered
  refine ⟨lowered, narrowed, hlowered, rfl, hnarrowed, ?_, hagain, hthresholds, hcount, hproxy⟩
  rw [← hjoined, hnarrowed]

end AuditHours.Weights
