import AuditHours.Proofs.Weights.Composition
import AuditHours.Proofs.Weights.Violated

/-!
What the readers of a table report. A reader that an overlay has been laid under reports the
violations of the merged document and nothing else, in order. Scalars do so, and a group does so if
its members do. The group of the thresholds reports bounds in the wrong order only where both bounds
have been read and no key is unknown, so the rule of the order is broken.
-/
namespace AuditHours.Weights

open Number Json Validation

/-- Whatever overlay is laid over a document, what a reader reports below a location is a list of
all that is wrong. -/
def Reports {α : Type} (layout : Layout) (rule : Rule)
    (reader : List String → Value → Checked α) (document : α → Value) : Prop :=
  ∀ (old : α) (overlay : Option Value), (∀ v, overlay = some v → v.Keyed) →
    ∃ found,
      (∀ location, (reader location (laid (document old) overlay)).violations =
        found.map (·.under location)) ∧
      Lists layout rule (document old) (laid (document old) overlay) found

def noRule : Rule := fun _ _ _ => False

/-! ### Scalars -/

section

variable {layout : Layout} {rule : Rule}

/-- A scalar reports the reason for which a value is refused. -/
theorem reports_scalar {α : Type} {read : Value → Except Reason α} (amount : α → Amount)
    (hread : ∀ v reason, read v = .error reason ↔ Refused (layout.kind []) v reason) :
    Reports layout rule (scalar read) fun x => amountValue (amount x) := by
  intro old overlay _
  rw [laid_amountValue]
  cases hvalue : read (overlay.getD (amountValue (amount old))) with
  | ok x =>
    refine ⟨[], fun location => violations_scalar_of_ok hvalue, fun v => ?_, List.Pairwise.nil⟩
    simp [← hread, hvalue]
  | error reason =>
    refine ⟨[⟨[], reason⟩], fun location => ?_, fun v => ?_, List.pairwise_singleton _ _⟩
    · rw [violations_scalar_of_error hvalue]
      simp [Violation.under]
    · simp [← hread, hvalue]

theorem reports_bound (hkind : layout.kind [] = .bound) :
    Reports layout rule (scalar bound) Value.int := by
  refine reports_scalar Amount.whole fun v reason => ?_
  rw [hkind, bound, read_inRange_eq_error]
  constructor
  · rintro (hread | ⟨n, hread, hrange, rfl⟩)
    · exact Refused.bound hread
    · exact Refused.boundRange hread (by simpa using hrange)
  · intro h
    cases h with
    | bound hread => exact Or.inl hread
    | boundRange hread hrange => exact Or.inr ⟨_, hread, by simpa using hrange, rfl⟩

theorem reports_count (hkind : layout.kind [] = .count) :
    Reports layout rule (scalar count) Value.int := by
  refine reports_scalar Amount.whole fun v reason => ?_
  rw [hkind, count, read_inRange_eq_error]
  constructor
  · rintro (hread | ⟨n, hread, hrange, rfl⟩)
    · exact Refused.count hread
    · exact Refused.countRange hread (by simpa using hrange)
  · intro h
    cases h with
    | count hread => exact Or.inl hread
    | countRange hread hrange => exact Or.inr ⟨_, hread, by simpa using hrange, rfl⟩

theorem reports_weight (hkind : layout.kind [] = .weight) :
    Reports layout rule readWeight amountValue := by
  refine reports_scalar id fun v reason => ?_
  have hmap : (weight v).map Amount.real = .error reason ↔ weight v = .error reason := by
    cases weight v <;> simp [Except.map]
  rw [hkind, hmap, weight, read_inRange_eq_error]
  constructor
  · rintro (hread | ⟨n, hread, hrange, rfl⟩)
    · exact Refused.weight hread
    · exact Refused.weightRange hread hrange
  · intro h
    cases h with
    | weight hread => exact Or.inl hread
    | weightRange hread hrange => exact Or.inr ⟨_, hread, hrange, rfl⟩

end

/-! ### Groups -/

section

variable {layout : Layout} {rule : Rule} {base merged : Fields}

theorem Earlier.below {under after : Value} {key : String} {first second : List String}
    (hunder : field? base key = some under) (hafter : field? merged key = some after)
    (h : Earlier under after first second) :
    Earlier (.obj base) (.obj merged) (key :: first) (key :: second) := by
  obtain ⟨path, step, other, rest, more, rfl, rfl, hlt⟩ := h
  refine ⟨key :: path, step, other, rest, more, rfl, rfl, ?_⟩
  have hkeys : keysAt (.obj base) (.obj merged) (key :: path) = keysAt under after path := by
    simp only [keysAt, Value.at?_obj_cons, hunder, hafter, Option.bind_some]
  rwa [hkeys]

/-- Below two keys of a group places come in the order of the keys. -/
theorem pairwise_keysAt (hbase : (base.map Prod.fst).Nodup) (hmerged : (merged.map Prod.fst).Nodup) :
    (keysAt (.obj base) (.obj merged) []).Pairwise fun key other =>
      ∀ rest more, Earlier (.obj base) (.obj merged) (key :: rest) (other :: more) := by
  have hnodup : (keysAt (.obj base) (.obj merged) []).Nodup := by
    refine List.nodup_append.mpr ⟨hbase, hmerged.filter _, ?_⟩
    rintro key hkey other hother rfl
    simp [hkey] at hother
  rw [List.pairwise_iff_getElem]
  intro i j hi hj hij rest more
  refine ⟨[], _, _, rest, more, rfl, rfl, ?_⟩
  rwa [hnodup.idxOf_getElem, hnodup.idxOf_getElem]

/-- The violations of the members of a group, and after them those of keys that it does not have. -/
def gathered (parts : List (String × List Violation)) (unknown : List String) : List Violation :=
  parts.flatMap (fun part => part.2.map (·.under [part.1])) ++
    unknown.map fun key => ⟨[key], .unknownKey⟩

theorem mem_gathered {parts : List (String × List Violation)} {unknown : List String}
    {v : Violation} : v ∈ gathered parts unknown ↔
      (∃ part ∈ parts, ∃ w ∈ part.2, v = w.under [part.1]) ∨
      ∃ key ∈ unknown, v = ⟨[key], .unknownKey⟩ := by
  simp only [gathered, List.mem_append, List.mem_flatMap, List.mem_map, eq_comm]

/-- What is gathered stands in order if each of the parts does: the parts stand in the order of
their keys. -/
theorem pairwise_gathered {parts : List (String × List Violation)} {unknown : List String}
    {earlier : List String → List String → Prop}
    (hparts : ∀ part ∈ parts, part.2.Pairwise fun v w =>
      earlier (part.1 :: v.location) (part.1 :: w.location))
    (hkeys : (parts.map Prod.fst ++ unknown).Pairwise fun key other =>
      ∀ rest more, earlier (key :: rest) (other :: more)) :
    (gathered parts unknown).Pairwise fun v w => earlier v.location w.location := by
  obtain ⟨hown, hnew, hacross⟩ := List.pairwise_append.mp hkeys
  rw [List.pairwise_map] at hown
  refine List.pairwise_append.mpr ⟨List.pairwise_flatMap.mpr ⟨fun part hpart => ?_, ?_⟩, ?_, ?_⟩
  · exact List.pairwise_map.mpr (hparts part hpart)
  · refine hown.imp fun hearlier v hv w hw => ?_
    obtain ⟨v, -, rfl⟩ := List.mem_map.mp hv
    obtain ⟨w, -, rfl⟩ := List.mem_map.mp hw
    exact hearlier _ _
  · exact List.pairwise_map.mpr (hnew.imp fun hearlier => hearlier [] [])
  · intro v hv w hw
    obtain ⟨part, hpart, hv⟩ := List.mem_flatMap.mp hv
    obtain ⟨v, -, rfl⟩ := List.mem_map.mp hv
    obtain ⟨other, hother, rfl⟩ := List.mem_map.mp hw
    exact hacross part.1 (List.mem_map_of_mem hpart) other hother _ []

/-- What is wrong with a merged object: what is wrong with each of its members, and then the keys
that the group does not have. -/
theorem lists_obj (hrule : ∀ given reason, ¬ rule [] given reason)
    (hbase : (base.map Prod.fst).Nodup) (hmerged : (merged.map Prod.fst).Nodup)
    (hpresent : ∀ key ∈ base.map Prod.fst, key ∈ merged.map Prod.fst)
    {parts : List (String × List Violation)} (hparts : parts.map Prod.fst = base.map Prod.fst)
    (hlists : ∀ part ∈ parts, ∀ under after, field? base part.1 = some under →
      field? merged part.1 = some after →
        Lists (layout.below part.1) (rule.below part.1) under after part.2) :
    Lists layout rule (.obj base) (.obj merged) (gathered parts
      ((merged.map Prod.fst).filter (! (base.map Prod.fst).contains ·))) := by
  have hmember : ∀ part ∈ parts, ∃ under after, field? base part.1 = some under ∧
      field? merged part.1 = some after ∧
      Lists (layout.below part.1) (rule.below part.1) under after part.2 := by
    intro part hpart
    have hkey : part.1 ∈ base.map Prod.fst := hparts ▸ List.mem_map_of_mem hpart
    obtain ⟨under, hunder⟩ := exists_field?_of_mem hkey
    obtain ⟨after, hafter⟩ := exists_field?_of_mem (hpresent _ hkey)
    exact ⟨under, after, hunder, hafter, hlists part hpart under after hunder hafter⟩
  refine ⟨fun v => ?_, pairwise_gathered (fun part hpart => ?_) ?_⟩
  · rw [violated_obj hrule, mem_gathered]
    constructor
    · rintro (⟨part, hpart, w, hw, rfl⟩ | ⟨key, hkey, rfl⟩)
      · obtain ⟨under, after, hunder, hafter, hpartLists⟩ := hmember part hpart
        exact Or.inl ⟨part.1, under, after, w, hunder, hafter, (hpartLists.mem_iff w).mp hw, rfl⟩
      · obtain ⟨hkey, hnew⟩ := List.mem_filter.mp hkey
        exact Or.inr ⟨key, hkey, by simpa using hnew, rfl⟩
    · rintro (⟨key, under, after, w, hunder, hafter, hviolated, rfl⟩ | ⟨key, hkey, hnew, rfl⟩)
      · have hkey : key ∈ parts.map Prod.fst := hparts ▸ mem_keys_of_field? hunder
        obtain ⟨part, hpart, rfl⟩ := List.mem_map.mp hkey
        have hw := ((hlists part hpart under after hunder hafter).mem_iff w).mpr hviolated
        exact Or.inl ⟨part, hpart, w, hw, rfl⟩
      · exact Or.inr ⟨key, List.mem_filter.mpr ⟨hkey, by simpa using hnew⟩, rfl⟩
  · obtain ⟨under, after, hunder, hafter, hpartLists⟩ := hmember part hpart
    exact hpartLists.ordered.imp fun hearlier => hearlier.below hunder hafter
  · rw [hparts]
    exact pairwise_keysAt hbase hmerged

section

variable {α : Type} {kinds : List String → Kind} {m : Member kinds α} {x : α} {given : Fields}

/-- What the reader of a member reports of a merged object lists what is wrong there. -/
theorem reports_member (hgiven : (Value.obj given).Keyed)
    (hfield : field? base m.key.document = some (m.document (m.field x)))
    (hreports : Reports (layout.below m.key.document) (rule.below m.key.document)
      m.reader m.document) :
    ∃ found,
      (∀ location, (m.read location (overlayFields base given)).violations =
        found.map (·.under (location ++ [m.key.document]))) ∧
      ∀ under after, field? base m.key.document = some under →
        field? (overlayFields base given) m.key.document = some after →
          Lists (layout.below m.key.document) (rule.below m.key.document) under after found := by
  obtain ⟨found, hreport, hlists⟩ :=
    hreports (m.field x) (field? given m.key.document) fun v hv => hgiven.member hv
  refine ⟨found, fun location => ?_, fun under after hunder hafter => ?_⟩
  · rw [Member.read_merged hgiven hfield]
    exact hreport _
  · rw [hfield, Option.some.injEq] at hunder
    rw [field?_overlayFields hgiven.nodup hfield, Option.some.injEq] at hafter
    rw [← hunder, ← hafter]
    exact hlists

end

/-- A group without a rule of its own reports what its members report, and then the keys that it
does not have. -/
theorem reports_group {α : Type} {kinds : List String → Kind} {name : String}
    {members : List (Member kinds α)} {document : α → Fields}
    {readFields : List String → Fields → Checked α}
    (h : ReadsMembers members document readFields) (hname : name = layout.name [])
    (hrule : ∀ given reason, ¬ rule [] given reason)
    (hviolations : ∀ location fields, (readFields location fields).violations =
      members.flatMap fun m => (m.read location fields).violations)
    (hmembers : ∀ m ∈ members, Reports (layout.below m.key.document) (rule.below m.key.document)
      m.reader m.document) :
    Reports layout rule (group name (members.map Member.key) readFields)
      fun x => .obj (document x) := by
  intro old overlay hkeyed
  rcases laid_obj_cases (document old) hkeyed with ⟨given, hgiven, hlaid⟩ | hother
  · rw [hlaid]
    have hparts := fun m hm => reports_member hgiven (h.field old hm) (hmembers m hm)
    choose! found hreport hlists using hparts
    have hkeys : (members.map fun m => (m.key.document, found m)).map Prod.fst =
        (document old).map Prod.fst := by
      rw [h.document_keys, List.map_map, List.map_map]
      rfl
    refine ⟨_, fun location => ?_, lists_obj hrule (h.document_nodup old)
      (nodup_overlayFields (h.document_nodup old) hgiven.nodup)
      (fun key hkey => mem_keys_overlayFields.mpr (Or.inl hkey)) hkeys
      (List.forall_mem_map.mpr hlists)⟩
    have hread : (members.flatMap fun m =>
          (m.read location (overlayFields (document old) given)).violations) =
        members.flatMap fun m => (found m).map (·.under (location ++ [m.key.document])) :=
      List.flatMap_congr fun m hm => hreport m hm location
    rw [violations_group_obj, hviolations, hread, h.unknownKeys_overlayFields, gathered]
    simp only [List.map_append, List.map_flatMap, List.flatMap_map, List.map_map,
      Function.comp_def, Violation.under_under]
    rfl
  · refine ⟨[⟨[], .notGroup name⟩], fun location => ?_, fun v => ?_, List.pairwise_singleton _ _⟩
    · simp [violations_group_of_ne_obj hother, Violation.under]
    · simp [wrong_of_ne_obj hother, not_breaks_of_ne_obj hother, hname]

end

/-! ### The groups of the table -/

def nameAt : List String → String
  | ["sizeThresholds"] => "SizeThresholds"
  | ["baseTimes"] => "BaseTimes"
  | ["complexityFactors"] => "ComplexityFactors"
  | ["complexityFactors", "upgradeability"] => "UpgradeabilityWeights"
  | _ => "WeightConfig"

def tableLayout : Layout := ⟨kindAt, nameAt⟩

/-- The one rule of a table is broken: its small threshold is not below the medium one. -/
inductive Misordered : Rule
  | intro {given : Fields} {small medium : Value} {t : Thresholds}
      (hsmall : field? given "small" = some small) (hmedium : field? given "medium" = some medium)
      (hreadSmall : Reads .bound small (.whole t.small))
      (hreadMedium : Reads .bound medium (.whole t.medium)) (horder : t.medium ≤ t.small) :
      Misordered ["sizeThresholds"] given (.rule t.orderText)

theorem Misordered.path_eq {path : List String} {given : Fields} {reason : Reason}
    (h : Misordered path given reason) : path = ["sizeThresholds"] := by
  cases h
  rfl

theorem reads_bound_iff {v : Value} {n : Int} : Reads .bound v (.whole n) ↔ bound v = .ok n := by
  rw [bound_eq_ok]
  constructor
  · intro h
    cases h with
    | bound hread hrange => exact ⟨hread, hrange⟩
  · rintro ⟨hread, hrange⟩
    exact Reads.bound hread hrange

theorem BaseTimes.reports : Reports (tableLayout.below "baseTimes")
    (Rule.below Misordered "baseTimes") BaseTimes.read fun t => .obj t.document := by
  refine reports_group readsMembers rfl ?_ ?_ ?_
  · intro given reason h
    exact absurd h.path_eq (by decide)
  · intro location fields
    simp [readFields, members, Member.hours, Member.read]
  · simp only [members, List.forall_mem_cons]
    exact ⟨reports_weight rfl, reports_weight rfl, reports_weight rfl, by simp⟩

theorem Upgradeability.reports :
    Reports ((tableLayout.below "complexityFactors").below "upgradeability")
      ((Rule.below Misordered "complexityFactors").below "upgradeability") Upgradeability.read
      fun u => .obj u.document := by
  refine reports_group readsMembers rfl ?_ ?_ ?_
  · intro given reason h
    exact absurd h.path_eq (by decide)
  · intro location fields
    simp [readFields, members, Member.hours, Member.read]
  · simp only [members, List.forall_mem_cons]
    exact ⟨reports_weight rfl, reports_weight rfl, reports_weight rfl, reports_weight rfl,
      reports_weight rfl, by simp⟩

theorem Factors.reports : Reports (tableLayout.below "complexityFactors")
    (Rule.below Misordered "complexityFactors") Factors.read fun f => .obj f.document := by
  refine reports_group readsMembers rfl ?_ ?_ ?_
  · intro given reason h
    exact absurd h.path_eq (by decide)
  · intro location fields
    simp [readFields, members, Member.hours, Member.read]
  · simp only [members, List.forall_mem_cons]
    exact ⟨reports_weight rfl, reports_count rfl, reports_weight rfl, reports_weight rfl,
      reports_weight rfl, reports_weight rfl, Upgradeability.reports, by simp⟩

namespace Thresholds

theorem reports_readBounds : Reports (tableLayout.below "sizeThresholds") noRule readBounds
    fun t => .obj t.document := by
  refine reports_group readsMembers rfl (fun given reason h => h) ?_ ?_
  · intro location fields
    simp [readFields, members, Member.bound, Member.read]
  · simp only [members, List.forall_mem_cons]
    exact ⟨reports_bound rfl, reports_bound rfl, by simp⟩

variable {fields : Fields} {small medium : Value} {t : Thresholds} {location : List String}

theorem readFields_eq_valid (hsmall : field? fields "small" = some small)
    (hmedium : field? fields "medium" = some medium) :
    readFields location fields = .valid t ↔
      Reads .bound small (.whole t.small) ∧ Reads .bound medium (.whole t.medium) := by
  have hreadSmall : Key.read ⟨"small", "small"⟩ fields location 200 (scalar bound) = _ :=
    Key.read_of_document hsmall
  have hreadMedium : Key.read ⟨"medium", "medium"⟩ fields location 1000 (scalar bound) = _ :=
    Key.read_of_document hmedium
  rw [readFields, hreadSmall, hreadMedium, Checked.seq_eq_valid]
  simp only [Checked.map_eq_valid, scalar_eq_valid, reads_bound_iff]
  constructor
  · rintro ⟨_, medium, ⟨small, hsmall, rfl⟩, hmedium, rfl⟩
    exact ⟨hsmall, hmedium⟩
  · rintro ⟨hsmall, hmedium⟩
    exact ⟨_, _, ⟨_, hsmall, rfl⟩, hmedium, rfl⟩

theorem misordered_iff (hsmall : field? fields "small" = some small)
    (hmedium : field? fields "medium" = some medium)
    (hreadSmall : Reads .bound small (.whole t.small))
    (hreadMedium : Reads .bound medium (.whole t.medium)) {reason : Reason} :
    Misordered ["sizeThresholds"] fields reason ↔
      t.medium ≤ t.small ∧ reason = .rule t.orderText := by
  constructor
  · rintro @⟨_, small', medium', t', hsmall', hmedium', hreadSmall', hreadMedium', horder⟩
    obtain rfl : small = small' := Option.some.inj (hsmall.symm.trans hsmall')
    obtain rfl : medium = medium' := Option.some.inj (hmedium.symm.trans hmedium')
    rw [reads_bound_iff] at hreadSmall hreadMedium hreadSmall' hreadMedium'
    obtain rfl : t = t' := by
      rw [hreadSmall, Except.ok.injEq] at hreadSmall'
      rw [hreadMedium, Except.ok.injEq] at hreadMedium'
      change Thresholds.mk t.small t.medium = ⟨t'.small, t'.medium⟩
      rw [hreadSmall', hreadMedium']
    exact ⟨horder, rfl⟩
  · rintro ⟨horder, rfl⟩
    exact Misordered.intro hsmall hmedium hreadSmall hreadMedium horder

/-- With bounds that have been read nothing is wrong but their order, if it is. -/
theorem lists_order {base : Fields} {layout : Layout}
    (hclear : ∀ v, ¬ Wrong layout (.obj base) (.obj fields) v)
    (hsmall : field? fields "small" = some small) (hmedium : field? fields "medium" = some medium)
    (hreadSmall : Reads .bound small (.whole t.small))
    (hreadMedium : Reads .bound medium (.whole t.medium)) :
    Lists layout (Rule.below Misordered "sizeThresholds") (.obj base) (.obj fields)
      (if t.small < t.medium then [] else [⟨[], .rule t.orderText⟩]) := by
  have hbreaks : ∀ v, Breaks layout (Rule.below Misordered "sizeThresholds") (.obj base)
      (.obj fields) v ↔ t.medium ≤ t.small ∧ v = ⟨[], .rule t.orderText⟩ := by
    intro v
    constructor
    · rintro ⟨⟨_, given, -, hvalue, hbroken⟩, -⟩
      obtain ⟨location, reason⟩ := v
      obtain rfl : location = [] := by simpa [Rule.below] using hbroken.path_eq
      obtain rfl : fields = given := Value.obj.inj (Option.some.inj hvalue)
      obtain ⟨horder, rfl⟩ :=
        (misordered_iff hsmall hmedium hreadSmall hreadMedium).mp hbroken
      exact ⟨horder, rfl⟩
    · rintro ⟨horder, rfl⟩
      refine ⟨⟨base, fields, rfl, rfl, ?_⟩, fun other hwrong => absurd hwrong (hclear other)⟩
      exact Misordered.intro hsmall hmedium hreadSmall hreadMedium horder
  refine ⟨fun v => ?_, ?_⟩
  · rw [hbreaks, or_iff_right (hclear v)]
    split
    · next hrising => simp [Int.not_le.mpr hrising]
    · next hfalling => simp [Int.not_lt.mp hfalling]
  · split <;> simp

/-- Bounds with which nothing is wrong are read, wherever they stand, and are compared. -/
theorem reports_order {old : Thresholds} {given : Fields} {layout : Layout}
    (hgiven : (Value.obj given).Keyed)
    (hclear : ∀ v, ¬ Wrong layout (.obj old.document) (.obj (overlayFields old.document given)) v)
    (hread : (readBounds [] (.obj (overlayFields old.document given))).Succeeds) :
    ∃ found,
      (∀ location, (Thresholds.read location
        (.obj (overlayFields old.document given))).violations = found.map (·.under location)) ∧
      Lists layout (Rule.below Misordered "sizeThresholds") (.obj old.document)
        (.obj (overlayFields old.document given)) found := by
  have hsmall : field? (overlayFields old.document given) "small" = _ :=
    field?_overlayFields hgiven.nodup rfl
  have hmedium : field? (overlayFields old.document given) "medium" = _ :=
    field?_overlayFields hgiven.nodup rfl
  obtain ⟨t, ht⟩ := hread
  obtain ⟨_, hfields, hread, hknown⟩ := group_eq_valid.mp ht
  obtain rfl := Value.obj.inj hfields
  have hreads := (readFields_eq_valid hsmall hmedium).mp hread
  have hvalid : ∀ location,
      readBounds location (.obj (overlayFields old.document given)) = .valid t :=
    fun location => group_eq_valid.mpr
      ⟨_, rfl, (readFields_eq_valid hsmall hmedium).mpr hreads, hknown⟩
  refine ⟨_, fun location => ?_, lists_order hclear hsmall hmedium hreads.1 hreads.2⟩
  change ((readBounds location _).ensure _ _).violations = _
  rw [hvalid location]
  unfold Checked.ensure
  by_cases hrising : t.small < t.medium
  · simp [hrising, Checked.violations]
  · simp [hrising, Checked.violations, Violation.under]

/-- What is wrong with the bounds hides their order; where nothing is, both bounds have been read
and are compared. -/
theorem reports : Reports (tableLayout.below "sizeThresholds")
    (Rule.below Misordered "sizeThresholds") Thresholds.read fun t => .obj t.document := by
  intro old overlay hkeyed
  obtain ⟨found, hreport, hlists⟩ := reports_readBounds old overlay hkeyed
  have hwrong : ∀ v, v ∈ found ↔ Wrong (tableLayout.below "sizeThresholds") (.obj old.document)
      (laid (.obj old.document) overlay) v := by
    intro v
    rw [hlists.mem_iff, or_iff_left]
    exact fun hbreaks => hbreaks.broken.elim fun _ ⟨_, _, _, hbroken⟩ => hbroken
  cases found with
  | cons first more =>
    refine ⟨first :: more, fun location => ?_, fun v => ?_, hlists.ordered⟩
    · have hsome : (readBounds location (laid (.obj old.document) overlay)).violations ≠ [] := by
        rw [hreport location]
        simp
      exact (violations_ensure_of_ne_nil hsome).trans (hreport location)
    · rw [hwrong, or_iff_left]
      rintro ⟨⟨_, _, -, -, hbroken⟩, halone⟩
      have hlocation : v.location = [] := by simpa [Rule.below] using hbroken.path_eq
      refine halone first ((hwrong first).mp (List.mem_cons_self ..)) ?_
      rw [hlocation]
      exact List.nil_prefix
  | nil =>
    have hread := violations_eq_nil_iff.mp (hreport [])
    rcases laid_obj_cases old.document hkeyed with ⟨given, hgiven, hlaid⟩ | hother
    · rw [hlaid] at hread hwrong ⊢
      exact reports_order hgiven (fun v hv => by simpa using (hwrong v).mpr hv) hread
    · simp [readBounds, violations_group_of_ne_obj hother] at hreport

end Thresholds

/-- The reader of a table reports what is wrong with the merged document and with the order of its
thresholds. -/
theorem reports : Reports tableLayout Misordered (group "WeightConfig" keys readFields)
    fun w => .obj w.document := by
  refine reports_group readsMembers rfl ?_ ?_ ?_
  · intro given reason h
    exact absurd h.path_eq (by decide)
  · intro location fields
    simp [readFields, members, Member.read]
  · simp only [members, List.forall_mem_cons]
    exact ⟨Thresholds.reports, BaseTimes.reports, Factors.reports, by simp⟩

end AuditHours.Weights
