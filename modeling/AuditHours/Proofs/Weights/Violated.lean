import AuditHours.Proofs.Json.Replacing
import AuditHours.Proofs.Validation.Reporting
import AuditHours.Proofs.Weights.Laying

/-!
What is wrong with a merged document. Beside the document that it is to replace, a merged document
is wrong at a leaf whose value is refused, at a group that holds no object, and at each key of a
group that the group does not have. A rule of a group is broken only if nothing else is wrong with
the group. Violations stand in the order of the fields, and those of a group's unknown keys after
them, in the order of the document.
-/
namespace AuditHours.Weights

open Number Json Validation

/-- Why a value is no number of a kind, or none in its range. -/
inductive Refused : Kind → Value → Reason → Prop
  | bound {v : Value} {reason : Reason} (hread : wholeNumber v = .error reason) :
      Refused .bound v reason
  | boundRange {v : Value} {n : Int} (hread : wholeNumber v = .ok n) (hrange : n ≤ 0) :
      Refused .bound v .notAboveZero
  | count {v : Value} {reason : Reason} (hread : wholeNumber v = .error reason) :
      Refused .count v reason
  | countRange {v : Value} {n : Int} (hread : wholeNumber v = .ok n) (hrange : n < 0) :
      Refused .count v .belowZero
  | weight {v : Value} {reason : Reason} (hread : realNumber v = .error reason) :
      Refused .weight v reason
  | weightRange {v : Value} {x : Float} (hread : realNumber v = .ok x)
      (hrange : (parts x).isAtLeastZero = false) : Refused .weight v .belowZero

/-- What stands at the places of a document: the kinds of its numbers and the names of its
groups. -/
structure Layout where
  kind : List String → Kind
  name : List String → String

def Layout.below (layout : Layout) (key : String) : Layout :=
  ⟨Weights.below key layout.kind, fun path => layout.name (key :: path)⟩

/-- What is wrong with a merged document beside the document that it is to replace. -/
inductive Wrong (layout : Layout) (base merged : Value) : Violation → Prop
  | leaf {path : List String} {a : Amount} {v : Value} {reason : Reason}
      (hleaf : base.at? path = some (amountValue a)) (hvalue : merged.at? path = some v)
      (hrefused : Refused (layout.kind path) v reason) : Wrong layout base merged ⟨path, reason⟩
  | group {path : List String} {fields : Fields} {v : Value}
      (hgroup : base.at? path = some (.obj fields)) (hvalue : merged.at? path = some v)
      (hother : ∀ given, v ≠ .obj given) :
      Wrong layout base merged ⟨path, .notGroup (layout.name path)⟩
  | unknown {path : List String} {key : String} {fields given : Fields}
      (hgroup : base.at? path = some (.obj fields)) (hvalue : merged.at? path = some (.obj given))
      (hkey : key ∈ given.map Prod.fst) (hnew : key ∉ fields.map Prod.fst) :
      Wrong layout base merged ⟨path ++ [key], .unknownKey⟩

/-- A rule on the fields of the group at a place, and why they break it. -/
abbrev Rule := List String → Fields → Reason → Prop

def Rule.below (rule : Rule) (key : String) : Rule := fun path => rule (key :: path)

/-- A violation of the rule of a group with which nothing else is wrong. -/
structure Breaks (layout : Layout) (rule : Rule) (base merged : Value) (v : Violation) : Prop where
  broken : ∃ fields given, base.at? v.location = some (.obj fields) ∧
    merged.at? v.location = some (.obj given) ∧ rule v.location given v.reason
  alone : ∀ other, Wrong layout base merged other → ¬ v.location <+: other.location

/-- The keys of a group in order: its own, and after them those that it does not have. -/
def keysAt (base merged : Value) (path : List String) : List String :=
  match base.at? path, merged.at? path with
  | some (.obj fields), some (.obj given) =>
    let own := fields.map Prod.fst
    own ++ (given.map Prod.fst).filter (! own.contains ·)
  | _, _ => []

/-- One place comes before another one if they part at two keys of a group that stand in this
order. -/
def Earlier (base merged : Value) (first second : List String) : Prop :=
  ∃ path key other rest more, first = path ++ key :: rest ∧ second = path ++ other :: more ∧
    (keysAt base merged path).idxOf key < (keysAt base merged path).idxOf other

/-- A list holds each violation of a merged document and nothing else, in order. -/
structure Lists (layout : Layout) (rule : Rule) (base merged : Value) (found : List Violation) :
    Prop where
  mem_iff : ∀ v, v ∈ found ↔ Wrong layout base merged v ∨ Breaks layout rule base merged v
  ordered : found.Pairwise fun v other => Earlier base merged v.location other.location

/-! ### The order of places -/

section

variable {base merged : Value} {first second : List String}

/-- Of two places in order neither lies at or below the other. -/
theorem Earlier.apart (h : Earlier base merged first second) :
    ¬ first <+: second ∧ ¬ second <+: first := by
  obtain ⟨path, key, other, rest, more, rfl, rfl, hlt⟩ := h
  constructor
  · intro hbelow
    obtain ⟨rfl, -⟩ := List.cons_prefix_cons.mp ((List.prefix_append_right_inj path).mp hbelow)
    exact Nat.lt_irrefl _ hlt
  · intro hbelow
    obtain ⟨rfl, -⟩ := List.cons_prefix_cons.mp ((List.prefix_append_right_inj path).mp hbelow)
    exact Nat.lt_irrefl _ hlt

theorem Earlier.ne (h : Earlier base merged first second) : first ≠ second := by
  rintro rfl
  exact h.apart.1 List.prefix_rfl

/-- Two places part at one group only. -/
theorem parting_unique {path path' : List String} {key other key' other' : String}
    {rest more rest' more' : List String} (hne : key ≠ other) (hne' : key' ≠ other')
    (hfirst : path ++ key :: rest = path' ++ key' :: rest')
    (hsecond : path ++ other :: more = path' ++ other' :: more') :
    path = path' ∧ key = key' ∧ other = other' := by
  induction path generalizing path' with
  | nil =>
    cases path' with
    | nil => exact ⟨rfl, (List.cons.inj hfirst).1, (List.cons.inj hsecond).1⟩
    | cons step path' =>
      exact absurd ((List.cons.inj hfirst).1.trans (List.cons.inj hsecond).1.symm) hne
  | cons step path ih =>
    cases path' with
    | nil => exact absurd ((List.cons.inj hfirst).1.symm.trans (List.cons.inj hsecond).1) hne'
    | cons step' path' =>
      obtain ⟨rfl, hfirst'⟩ := List.cons.inj hfirst
      obtain ⟨rfl, hkeys⟩ := ih hfirst' (List.cons.inj hsecond).2
      exact ⟨rfl, hkeys⟩

theorem Earlier.asymm (h : Earlier base merged first second) :
    ¬ Earlier base merged second first := by
  obtain ⟨path, key, other, rest, more, rfl, rfl, hlt⟩ := h
  rintro ⟨path', key', other', rest', more', hsecond, hfirst, hlt'⟩
  have hne : key ≠ other := fun heq => Nat.lt_irrefl _ (heq ▸ hlt)
  have hne' : other' ≠ key' := fun heq => Nat.lt_irrefl _ (heq ▸ hlt')
  obtain ⟨rfl, rfl, rfl⟩ := parting_unique hne hne' hfirst hsecond
  exact Nat.lt_asymm hlt hlt'

end

/-! ### Taking a document apart -/

section

variable {layout : Layout} {rule : Rule} {a : Amount} {u : Value} {base merged : Fields}
  {v : Violation} {key : String}

@[simp]
theorem wrong_amountValue : Wrong layout (amountValue a) u v ↔
    ∃ reason, Refused (layout.kind []) u reason ∧ v = ⟨[], reason⟩ := by
  constructor
  · intro h
    cases h with
    | leaf hleaf hvalue hrefused =>
      obtain ⟨rfl, -⟩ := at?_amountValue hleaf
      exact ⟨_, Option.some.inj hvalue ▸ hrefused, rfl⟩
    | group hgroup | unknown hgroup => exact absurd hgroup at?_amountValue_ne_obj
  · rintro ⟨reason, hrefused, rfl⟩
    exact Wrong.leaf rfl rfl hrefused

theorem wrong_of_ne_obj (hother : ∀ given, u ≠ .obj given) :
    Wrong layout (.obj base) u v ↔ v = ⟨[], .notGroup (layout.name [])⟩ := by
  constructor
  · intro h
    cases h with
    | @leaf path _ _ _ hleaf hvalue =>
      cases path with
      | nil => exact absurd (Option.some.inj hleaf).symm amountValue_ne_obj
      | cons key path => simp [Value.at?_cons_of_ne_obj hother] at hvalue
    | @group path _ _ hgroup hvalue =>
      cases path with
      | nil => rfl
      | cons key path => simp [Value.at?_cons_of_ne_obj hother] at hvalue
    | @unknown path _ _ _ hgroup hvalue =>
      cases path with
      | nil => exact absurd (Option.some.inj hvalue) (hother _)
      | cons key path => simp [Value.at?_cons_of_ne_obj hother] at hvalue
  · rintro rfl
    exact Wrong.group rfl rfl hother

/-- A merged object is wrong where one of its members is, and at the keys that the group does not
have. -/
theorem wrong_obj : Wrong layout (.obj base) (.obj merged) v ↔
    (∃ key under after w, field? base key = some under ∧ field? merged key = some after ∧
      Wrong (layout.below key) under after w ∧ v = w.under [key]) ∨
    ∃ key ∈ merged.map Prod.fst, key ∉ base.map Prod.fst ∧ v = ⟨[key], .unknownKey⟩ := by
  have hmember : ∀ {key path x y}, (Value.obj base).at? (key :: path) = some x →
      (Value.obj merged).at? (key :: path) = some y → ∃ under after,
        field? base key = some under ∧ field? merged key = some after ∧
        under.at? path = some x ∧ after.at? path = some y := by
    intro key path x y hx hy
    obtain ⟨under, hunder, hx⟩ := Option.bind_eq_some_iff.mp hx
    obtain ⟨after, hafter, hy⟩ := Option.bind_eq_some_iff.mp hy
    exact ⟨under, after, hunder, hafter, hx, hy⟩
  constructor
  · intro h
    cases h with
    | @leaf path _ _ _ hleaf hvalue hrefused =>
      cases path with
      | nil => exact absurd (Option.some.inj hleaf).symm amountValue_ne_obj
      | cons key path =>
        obtain ⟨under, after, hunder, hafter, hx, hy⟩ := hmember hleaf hvalue
        exact Or.inl ⟨key, under, after, _, hunder, hafter, Wrong.leaf hx hy hrefused, rfl⟩
    | @group path _ _ hgroup hvalue hother =>
      cases path with
      | nil => exact absurd (Option.some.inj hvalue).symm (hother merged)
      | cons key path =>
        obtain ⟨under, after, hunder, hafter, hx, hy⟩ := hmember hgroup hvalue
        exact Or.inl ⟨key, under, after, _, hunder, hafter, Wrong.group hx hy hother, rfl⟩
    | @unknown path name fields given hgroup hvalue hkey hnew =>
      cases path with
      | nil =>
        obtain rfl : base = fields := Value.obj.inj (Option.some.inj hgroup)
        obtain rfl : merged = given := Value.obj.inj (Option.some.inj hvalue)
        exact Or.inr ⟨name, hkey, hnew, rfl⟩
      | cons key path =>
        obtain ⟨under, after, hunder, hafter, hx, hy⟩ := hmember hgroup hvalue
        exact Or.inl ⟨key, under, after, _, hunder, hafter, Wrong.unknown hx hy hkey hnew, rfl⟩
  · have hat : ∀ {fields : Fields} {key under path x}, field? fields key = some under →
        under.at? path = some x → (Value.obj fields).at? (key :: path) = some x := by
      intro fields key under path x hunder hx
      rw [Value.at?_obj_cons, hunder]
      exact hx
    rintro (⟨key, under, after, w, hunder, hafter, hw, rfl⟩ | ⟨key, hkey, hnew, rfl⟩)
    · cases hw with
      | leaf hleaf hvalue hrefused =>
        exact Wrong.leaf (hat hunder hleaf) (hat hafter hvalue) hrefused
      | group hgroup hvalue hother =>
        exact Wrong.group (hat hunder hgroup) (hat hafter hvalue) hother
      | @unknown path _ _ _ hgroup hvalue hkey hnew =>
        exact @Wrong.unknown _ _ _ (key :: path) _ _ _ (hat hunder hgroup) (hat hafter hvalue) hkey
          hnew
    · exact @Wrong.unknown _ _ _ [] _ _ _ rfl rfl hkey hnew

/-- The rule of a member is broken in a merged object where it is broken in the member: only what is
wrong with the member stands below its key. -/
theorem breaks_obj (hrule : ∀ given reason, ¬ rule [] given reason) :
    Breaks layout rule (.obj base) (.obj merged) v ↔
      ∃ key under after w, field? base key = some under ∧ field? merged key = some after ∧
        Breaks (layout.below key) (rule.below key) under after w ∧ v = w.under [key] := by
  constructor
  · rintro ⟨⟨fields, given, hgroup, hvalue, hbroken⟩, halone⟩
    obtain ⟨location, reason⟩ := v
    cases location with
    | nil => exact absurd hbroken (hrule given reason)
    | cons key path =>
      obtain ⟨under, hunder, hgroup⟩ := Option.bind_eq_some_iff.mp hgroup
      obtain ⟨after, hafter, hvalue⟩ := Option.bind_eq_some_iff.mp hvalue
      refine ⟨key, under, after, ⟨path, reason⟩, hunder, hafter,
        ⟨⟨fields, given, hgroup, hvalue, hbroken⟩, ?_⟩, rfl⟩
      intro other hwrong hbelow
      refine halone (other.under [key]) ?_ (List.cons_prefix_cons.mpr ⟨rfl, hbelow⟩)
      exact wrong_obj.mpr (Or.inl ⟨key, under, after, other, hunder, hafter, hwrong, rfl⟩)
  · rintro ⟨key, under, after, w, hunder, hafter, hbreaks, rfl⟩
    obtain ⟨⟨fields, given, hgroup, hvalue, hbroken⟩, halone⟩ := hbreaks
    refine ⟨⟨fields, given, ?_, ?_, hbroken⟩, ?_⟩
    · change (Value.obj base).at? (key :: w.location) = _
      rw [Value.at?_obj_cons, hunder]
      exact hgroup
    · change (Value.obj merged).at? (key :: w.location) = _
      rw [Value.at?_obj_cons, hafter]
      exact hvalue
    · intro other hwrong hbelow
      rcases wrong_obj.mp hwrong with
        ⟨name, under', after', w', hunder', hafter', hw', rfl⟩ | ⟨name, -, hnew, rfl⟩
      · obtain ⟨rfl, hrest⟩ := List.cons_prefix_cons.mp hbelow
        obtain rfl : under = under' := Option.some.inj (hunder.symm.trans hunder')
        obtain rfl : after = after' := Option.some.inj (hafter.symm.trans hafter')
        exact halone w' hw' hrest
      · obtain ⟨rfl, -⟩ := List.cons_prefix_cons.mp hbelow
        exact hnew (mem_keys_of_field? hunder)

/-- What is wrong with a merged object or breaks a rule in it stands at a member, or is a key that
the group does not have. -/
theorem violated_obj (hrule : ∀ given reason, ¬ rule [] given reason) :
    (Wrong layout (.obj base) (.obj merged) v ∨ Breaks layout rule (.obj base) (.obj merged) v) ↔
      (∃ key under after w, field? base key = some under ∧ field? merged key = some after ∧
        (Wrong (layout.below key) under after w ∨
          Breaks (layout.below key) (rule.below key) under after w) ∧ v = w.under [key]) ∨
      ∃ key ∈ merged.map Prod.fst, key ∉ base.map Prod.fst ∧ v = ⟨[key], .unknownKey⟩ := by
  rw [wrong_obj, breaks_obj hrule]
  constructor
  · rintro ((⟨key, under, after, w, hunder, hafter, hwrong, hv⟩ | hnew) |
      ⟨key, under, after, w, hunder, hafter, hbreaks, hv⟩)
    · exact Or.inl ⟨key, under, after, w, hunder, hafter, Or.inl hwrong, hv⟩
    · exact Or.inr hnew
    · exact Or.inl ⟨key, under, after, w, hunder, hafter, Or.inr hbreaks, hv⟩
  · rintro (⟨key, under, after, w, hunder, hafter, hwrong | hbreaks, hv⟩ | hnew)
    · exact Or.inl (Or.inl ⟨key, under, after, w, hunder, hafter, hwrong, hv⟩)
    · exact Or.inr ⟨key, under, after, w, hunder, hafter, hbreaks, hv⟩
    · exact Or.inl (Or.inr hnew)

@[simp]
theorem not_breaks_amountValue : ¬ Breaks layout rule (amountValue a) u v := by
  rintro ⟨⟨fields, given, hgroup, -⟩, -⟩
  exact at?_amountValue_ne_obj hgroup

theorem not_breaks_of_ne_obj (hother : ∀ given, u ≠ .obj given) :
    ¬ Breaks layout rule (.obj base) u v := by
  rintro ⟨⟨fields, given, -, hvalue, -⟩, -⟩
  cases hlocation : v.location with
  | nil =>
    rw [hlocation] at hvalue
    exact hother given (Option.some.inj hvalue)
  | cons key path => simp [hlocation, Value.at?_cons_of_ne_obj hother] at hvalue

end

end AuditHours.Weights
