import AuditHours.Proofs.Weights.Reports

/-!
Correcting one leaf of an overlay. The merged document changes at this leaf only, and the groups
above it keep their keys. So what was wrong there is gone, everything else that is wrong stays, and
the order of places is the same.
-/
namespace AuditHours.Weights

open Number Json Validation

/-! ### The merged document -/

section

variable {base v w u : Value} {given : Fields} {path : List String} {a : Amount} {key : String}

/-- A field written into an overlay is laid over the base when its turn comes. -/
theorem overlayFields_setField {fields : Fields} (hfields : (fields.map Prod.fst).Nodup)
    (hgiven : (given.map Prod.fst).Nodup) (hkey : key ∈ given.map Prod.fst)
    (hv : field? fields key = some v) :
    overlayFields fields (setField given key w) =
      setField (overlayFields fields given) key (laid v (some w)) := by
  have hset : ((setField given key w).map Prod.fst).Nodup := by
    rwa [keys_setField_of_mem hkey]
  have hmerged : key ∈ (overlayFields fields given).map Prod.fst :=
    mem_keys_overlayFields.mpr (Or.inr hkey)
  refine fields_ext ?_ (nodup_overlayFields hfields hset) fun other => ?_
  · rw [keys_setField_of_mem hmerged, keys_overlayFields hset, keys_overlayFields hgiven,
      keys_setField_of_mem hkey]
  · by_cases hother : other = key
    · subst hother
      rw [field?_overlayFields hset hv]
      simp
    · rw [field?_setField_of_ne _ _ hother, field?_overlayFields_eq hset,
        field?_overlayFields_eq hgiven, field?_setField_of_ne _ _ hother]

/-- Correcting a leaf that an overlay names corrects it in the merged document. -/
theorem laid_replaceAt (hbase : base.Keyed) (hkeyed : v.Keyed)
    (hleaf : base.at? path = some (amountValue a)) (hgiven : v.at? path = some u) :
    laid base (some (v.replaceAt path w)) = (laid base (some v)).replaceAt path w := by
  induction path generalizing base v with
  | nil =>
    obtain rfl : base = amountValue a := Option.some.inj hleaf
    simp [Value.replaceAt]
  | cons key path ih =>
    obtain ⟨fields, under, rfl, hunder, hleaf⟩ := Value.at?_cons_eq_some hleaf
    obtain ⟨given, sub, rfl, hsub, hgiven⟩ := Value.at?_cons_eq_some hgiven
    have hmerged := field?_overlayFields hkeyed.nodup hunder
    rw [hsub] at hmerged
    rw [Value.replaceAt_obj_cons hsub, laid_obj, laid_obj, Value.replaceAt_obj_cons hmerged,
      overlayFields_setField hbase.nodup hkeyed.nodup
        (mem_keys_of_field? hsub) hunder,
      ih (hbase.member hunder) (hkeyed.member hsub) hleaf hgiven]

/-- A leaf of a merged document is the overlay's or the same as before. -/
theorem at?_laid_leaf (hkeyed : v.Keyed) (hleaf : base.at? path = some (amountValue a))
    (hu : (laid base (some v)).at? path = some u) : v.at? path = some u ∨ u = amountValue a := by
  induction path generalizing base v with
  | nil =>
    obtain rfl : base = amountValue a := Option.some.inj hleaf
    exact Or.inl (by simpa [Value.at?] using hu)
  | cons key path ih =>
    obtain ⟨fields, under, rfl, hunder, hleaf⟩ := Value.at?_cons_eq_some hleaf
    cases v with
    | null | bool | int | real | str | arr => simp [laid, overlayValue, Value.at?, Value.get?] at hu
    | obj given =>
      rw [laid_obj, Value.at?_obj_cons, field?_overlayFields hkeyed.nodup hunder,
        Option.bind_some] at hu
      cases hsub : field? given key with
      | none =>
        rw [hsub] at hu
        exact Or.inr (Option.some.inj (hu.symm.trans hleaf))
      | some sub =>
        rw [hsub] at hu
        rw [Value.at?_obj_cons, hsub]
        exact ih (hkeyed.member hsub) hleaf hu

end

/-! ### Documents that differ in one leaf -/

/-- Two merged documents differ at most in the value of one leaf. -/
structure AlikeBut (path : List String) (base merged other : Value) : Prop where
  leaf : ∀ place a, base.at? place = some (amountValue a) → place ≠ path →
    other.at? place = merged.at? place
  group : ∀ place fields, base.at? place = some (.obj fields) →
    other.at? place = merged.at? place ∨
      ∃ given given', merged.at? place = some (.obj given) ∧ other.at? place = some (.obj given') ∧
        given'.map Prod.fst = given.map Prod.fst

section

variable {layout : Layout} {path : List String} {base merged other w u : Value} {a : Amount}
  {v : Violation}

/-- Below a leaf stands nothing. -/
theorem eq_of_below_leaf {place : List String} {x : Value}
    (hleaf : base.at? path = some (amountValue a)) (hplace : base.at? place = some x)
    (hbelow : path <+: place) : place = path := by
  obtain ⟨rest, rfl⟩ := hbelow
  rw [Value.at?_append, hleaf, Option.bind_some] at hplace
  cases rest with
  | nil => rw [List.append_nil]
  | cons key rest => simp at hplace

theorem alikeBut_replaceAt (hleaf : base.at? path = some (amountValue a))
    (hu : merged.at? path = some u) : AlikeBut path base merged (merged.replaceAt path w) where
  leaf place b hplace hne := by
    refine Value.at?_replaceAt_of_apart (fun hbelow => ?_) fun hbelow => ?_
    · exact hne (eq_of_below_leaf hplace hleaf hbelow).symm
    · exact hne (eq_of_below_leaf hleaf hplace hbelow)
  group place fields hplace := by
    have hne : place ≠ path := by
      rintro rfl
      exact amountValue_ne_obj (Option.some.inj (hleaf.symm.trans hplace))
    by_cases habove : place <+: path
    · exact Or.inr (Value.at?_replaceAt_of_above hu habove hne)
    · refine Or.inl (Value.at?_replaceAt_of_apart habove fun hbelow => ?_)
      exact hne (eq_of_below_leaf hleaf hplace hbelow)

theorem AlikeBut.symm (h : AlikeBut path base merged other) : AlikeBut path base other merged where
  leaf place b hplace hne := (h.leaf place b hplace hne).symm
  group place fields hplace := by
    rcases h.group place fields hplace with hsame | ⟨given, given', hgiven, hgiven', hkeys⟩
    · exact Or.inl hsame.symm
    · exact Or.inr ⟨given', given, hgiven', hgiven, hkeys.symm⟩

theorem AlikeBut.keysAt_eq (h : AlikeBut path base merged other) :
    keysAt base other = keysAt base merged := by
  funext place
  unfold keysAt
  cases hplace : base.at? place with
  | none => rfl
  | some x =>
    cases x with
    | null | bool | int | real | str | arr => rfl
    | obj fields =>
      rcases h.group place fields hplace with hsame | ⟨given, given', hgiven, hgiven', hkeys⟩
      · rw [hsame]
      · simp only [hgiven, hgiven', hkeys]

theorem AlikeBut.earlier_iff (h : AlikeBut path base merged other) {first second : List String} :
    Earlier base other first second ↔ Earlier base merged first second := by
  unfold Earlier
  rw [h.keysAt_eq]

/-- What is wrong elsewhere is wrong in both documents. -/
theorem AlikeBut.wrong (h : AlikeBut path base merged other) (hv : Wrong layout base merged v)
    (hne : v.location ≠ path) : Wrong layout base other v := by
  cases hv with
  | leaf hleaf hvalue hrefused =>
    exact Wrong.leaf hleaf ((h.leaf _ _ hleaf hne).trans hvalue) hrefused
  | group hgroup hvalue hother =>
    rcases h.group _ _ hgroup with hsame | ⟨given, given', hgiven, -, -⟩
    · exact Wrong.group hgroup (hsame.trans hvalue) hother
    · exact absurd (Option.some.inj (hvalue.symm.trans hgiven)) (hother given)
  | unknown hgroup hvalue hkey hnew =>
    rcases h.group _ _ hgroup with hsame | ⟨given, given', hgiven, hgiven', hkeys⟩
    · exact Wrong.unknown hgroup (hsame.trans hvalue) hkey hnew
    · obtain rfl := Value.obj.inj (Option.some.inj (hvalue.symm.trans hgiven))
      exact Wrong.unknown hgroup hgiven' (hkeys ▸ hkey) hnew

/-- At a leaf nothing is wrong but a value that is refused. -/
theorem Wrong.refused (hv : Wrong layout base merged v)
    (hleaf : base.at? v.location = some (amountValue a)) :
    ∃ u, merged.at? v.location = some u ∧ Refused (layout.kind v.location) u v.reason := by
  cases hv with
  | leaf _ hvalue hrefused => exact ⟨_, hvalue, hrefused⟩
  | group hgroup =>
    exact absurd (Option.some.inj (hgroup.symm.trans hleaf)).symm amountValue_ne_obj
  | @unknown place key fields given hgroup hvalue hkey hnew =>
    have hfield : field? fields key = some (amountValue a) := by
      rw [Value.at?_append, hgroup, Option.bind_some, Value.at?_obj_cons] at hleaf
      simpa [Value.at?] using hleaf
    exact absurd (mem_keys_of_field? hfield) hnew

theorem Reads.not_refused {kind : Kind} {b : Amount} {reason : Reason} (h : Reads kind w b) :
    ¬ Refused kind w reason := by
  intro hrefused
  cases h with
  | bound hread hrange =>
    cases hrefused with
    | bound hread' => simp [hread] at hread'
    | boundRange hread' hrange' =>
      rw [hread, Except.ok.injEq] at hread'
      omega
  | count hread hrange =>
    cases hrefused with
    | count hread' => simp [hread] at hread'
    | countRange hread' hrange' =>
      rw [hread, Except.ok.injEq] at hread'
      omega
  | weight hread hrange =>
    cases hrefused with
    | weight hread' => simp [hread] at hread'
    | weightRange hread' hrange' =>
      rw [hread, Except.ok.injEq] at hread'
      simp [hread', hrange'] at hrange

/-- The order of the thresholds stays broken where their group stays as it is. -/
theorem Breaks.of_same (h : Breaks layout Misordered base merged v)
    (hsame : other.at? ["sizeThresholds"] = merged.at? ["sizeThresholds"])
    (hwrong : ∀ w, ["sizeThresholds"] <+: w.location → Wrong layout base other w →
      Wrong layout base merged w) : Breaks layout Misordered base other v := by
  obtain ⟨⟨fields, given, hgroup, hvalue, hbroken⟩, halone⟩ := h
  have hlocation := hbroken.path_eq
  refine ⟨⟨fields, given, hgroup, ?_, hbroken⟩, fun w hw hbelow => ?_⟩
  · rw [hlocation, hsame, ← hlocation]
    exact hvalue
  · exact halone w (hwrong w (hlocation ▸ hbelow) hw) hbelow

/-- A leaf outside the thresholds that is given a value which can be read is wrong no more, and
nothing else changes. -/
theorem violated_replaceAt (hleaf : base.at? path = some (amountValue a))
    (hu : merged.at? path = some u) (hfirst : path.head? ≠ some "sizeThresholds") (hne : path ≠ [])
    (hreads : ∀ reason, ¬ Refused (layout.kind path) w reason) :
    (Wrong layout base (merged.replaceAt path w) v ∨
        Breaks layout Misordered base (merged.replaceAt path w) v) ↔
      (Wrong layout base merged v ∨ Breaks layout Misordered base merged v) ∧
        v.location ≠ path := by
  have halike := @alikeBut_replaceAt path base merged w u a hleaf hu
  have hapart : ¬ ["sizeThresholds"] <+: path := by
    rintro ⟨rest, rfl⟩
    exact hfirst rfl
  have hsame : (merged.replaceAt path w).at? ["sizeThresholds"] = merged.at? ["sizeThresholds"] := by
    refine Value.at?_replaceAt_of_apart hapart fun hbelow => hapart ?_
    cases path with
    | nil => exact absurd rfl hne
    | cons key rest =>
      obtain ⟨rfl, -⟩ := List.cons_prefix_cons.mp hbelow
      exact List.cons_prefix_cons.mpr ⟨rfl, List.nil_prefix⟩
  have hwrong : ∀ v, Wrong layout base (merged.replaceAt path w) v →
      Wrong layout base merged v ∧ v.location ≠ path := by
    intro v hv
    have hlocation : v.location ≠ path := by
      rintro rfl
      obtain ⟨u', hu', hrefused⟩ := hv.refused hleaf
      rw [Value.at?_replaceAt_self hu, Option.some.injEq] at hu'
      exact hreads _ (hu' ▸ hrefused)
    exact ⟨halike.symm.wrong hv hlocation, hlocation⟩
  constructor
  · rintro (hv | hv)
    · exact ⟨Or.inl (hwrong v hv).1, (hwrong v hv).2⟩
    · refine ⟨Or.inr (hv.of_same hsame.symm fun other hbelow hother => ?_), ?_⟩
      · exact halike.wrong hother fun heq => hapart (heq ▸ hbelow)
      · obtain ⟨⟨_, _, -, -, hbroken⟩, -⟩ := hv
        exact fun heq => hapart (heq ▸ hbroken.path_eq ▸ List.prefix_rfl)
  · rintro ⟨hv | hv, hlocation⟩
    · exact Or.inl (halike.wrong hv hlocation)
    · exact Or.inr (hv.of_same hsame fun other _ hother => (hwrong other hother).1)

end

end AuditHours.Weights
