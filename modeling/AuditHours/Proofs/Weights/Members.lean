import AuditHours.Proofs.Weights.Laying

/-!
Readers of a table under overlays. A reader lays overlays leaf by leaf if it takes exactly those
overlays that fit the document under them and keep the reader's own rule, if what it returns follows
the overlay, and if it returns only what stays the same when it is read again. Scalars do so, and a
group does so if its members do.
-/
namespace AuditHours.Weights

open Number Json Validation

/-- A reader lays overlays leaf by leaf, under a rule on what is laid over what. -/
structure Lays {α : Type} (kinds : List String → Kind) (rule : α → Option Value → Prop)
    (reader : List String → Value → Checked α) (document : α → Value) : Prop where
  succeeds_iff : ∀ {old : α} {overlay : Option Value} {location : List String},
    Sound kinds (document old) → (∀ v, overlay = some v → v.Keyed) →
      ((reader location (laid (document old) overlay)).Succeeds ↔
        (∀ v, overlay = some v → Fits kinds (document old) v) ∧ rule old overlay)
  follows : ∀ {old new : α} {overlay : Option Value} {location : List String},
    Sound kinds (document old) → (∀ v, overlay = some v → v.Keyed) →
      reader location (laid (document old) overlay) = .valid new →
        Follows kinds (document old) overlay (document new)
  sound : ∀ {location : List String} {v : Value} {new : α}, reader location v = .valid new →
    Sound kinds (document new)

def unruled {α : Type} (_ : α) (_ : Option Value) : Prop := True

variable {α : Type} {kinds : List String → Kind} {base given : Fields}
  {overlay : Option Value} {location : List String}

/-! ### Scalars -/

theorem lays_scalar {read : Value → Except Reason α} (amount : α → Amount)
    (hread : ∀ v a, Reads (kinds []) v a ↔ ∃ x, read v = .ok x ∧ a = amount x) :
    Lays kinds unruled (scalar read) fun x => amountValue (amount x) := by
  have hreads : ∀ {location v x}, scalar read location v = .valid x →
      Reads (kinds []) v (amount x) :=
    fun h => (hread _ _).mpr ⟨_, scalar_eq_valid.mp h, rfl⟩
  have hsucceeds : ∀ {location v}, (scalar read location v).Succeeds ↔
      ∃ a, Reads (kinds []) v a := by
    intro location v
    constructor
    · rintro ⟨x, hx⟩
      exact ⟨amount x, hreads hx⟩
    · rintro ⟨a, ha⟩
      obtain ⟨x, hx, -⟩ := (hread v a).mp ha
      exact ⟨x, scalar_eq_valid.mpr hx⟩
  refine ⟨?_, ?_, ?_⟩
  · intro old overlay location hsound _
    rw [laid_amountValue, hsucceeds]
    cases overlay with
    | none =>
      obtain ⟨again, hagain, -⟩ := hsound.rereads
      simpa [unruled] using ⟨again, hagain⟩
    | some v => simp [unruled]
  · intro old new overlay location hsound _ hnew path a ha
    obtain ⟨rfl, rfl⟩ := at?_amountValue ha
    rw [laid_amountValue] at hnew
    refine ⟨amount new, rfl, ?_, ?_⟩
    · intro v hv
      cases overlay with
      | none => simp at hv
      | some given =>
        obtain rfl : given = v := Option.some.inj hv
        exact hreads hnew
    · intro hnone
      cases overlay with
      | some given => simp [Value.at?] at hnone
      | none =>
        obtain ⟨again, hagain, hsame⟩ := hsound.rereads
        obtain ⟨x, hx, rfl⟩ := (hread _ _).mp hagain
        rw [Option.getD_none, scalar_eq_valid, hx] at hnew
        rwa [← Except.ok.inj hnew]
  · intro location v new hnew
    exact sound_amountValue (hreads hnew).rereads

theorem lays_bound (hkind : kinds [] = .bound) : Lays kinds unruled (scalar bound) Value.int := by
  refine lays_scalar Amount.whole fun v a => ?_
  rw [hkind]
  constructor
  · intro h
    cases h with
    | bound hread hrange => exact ⟨_, bound_eq_ok.mpr ⟨hread, hrange⟩, rfl⟩
  · rintro ⟨n, hn, rfl⟩
    obtain ⟨hread, hrange⟩ := bound_eq_ok.mp hn
    exact Reads.bound hread hrange

theorem lays_count (hkind : kinds [] = .count) : Lays kinds unruled (scalar count) Value.int := by
  refine lays_scalar Amount.whole fun v a => ?_
  rw [hkind]
  constructor
  · intro h
    cases h with
    | count hread hrange => exact ⟨_, count_eq_ok.mpr ⟨hread, hrange⟩, rfl⟩
  · rintro ⟨n, hn, rfl⟩
    obtain ⟨hread, hrange⟩ := count_eq_ok.mp hn
    exact Reads.count hread hrange

theorem lays_weight (hkind : kinds [] = .weight) : Lays kinds unruled readWeight amountValue := by
  refine lays_scalar id fun v a => ?_
  rw [hkind]
  constructor
  · intro h
    cases h with
    | weight hread hrange =>
      refine ⟨.real _, ?_, rfl⟩
      rw [weight_eq_ok.mpr ⟨hread, hrange⟩]
      rfl
  · rintro ⟨b, hb, rfl⟩
    cases hweight : weight v with
    | error reason => simp [hweight, Except.map] at hb
    | ok x =>
      rw [hweight] at hb
      obtain ⟨hread, hrange⟩ := weight_eq_ok.mp hweight
      rw [← Except.ok.inj hb]
      exact Reads.weight hread hrange

/-! ### Groups -/

/-- A member of a group: its key, its reader with the default for a missing value, and where it
stands in the group. -/
structure Member (kinds : List String → Kind) (α : Type) where
  {β : Type}
  key : Key
  reader : List String → Value → Checked β
  default : β
  document : β → Value
  field : α → β
  rule : β → Option Value → Prop
  lays : Lays (below key.document kinds) rule reader document
  sound : Sound (below key.document kinds) (document default)

namespace Member

def read (m : Member kinds α) (location : List String) (fields : Fields) : Checked m.β :=
  m.key.read fields location m.default m.reader

def entry (m : Member kinds α) (x : α) : String × Value := (m.key.document, m.document (m.field x))

variable {m : Member kinds α} {old new : α}

theorem read_merged (hkeyed : (Value.obj given).Keyed)
    (hfield : field? base m.key.document = some (m.document (m.field old))) :
    m.read location (overlayFields base given) =
      m.reader (location ++ [m.key.document])
        (laid (m.document (m.field old)) (field? given m.key.document)) :=
  Key.read_of_document (field?_overlayFields hkeyed.nodup hfield)

theorem sound_of_read {fields : Fields} (h : m.read location fields = .valid (m.field new)) :
    Sound (below m.key.document kinds) (m.document (m.field new)) := by
  rcases Key.read_eq_valid h with hdefault | ⟨location, v, hv⟩
  · rw [hdefault]
    exact m.sound
  · exact m.lays.sound hv

end Member

section

variable {name : String} {keys : List Key} {readFields : List String → Fields → Checked α} {x : α}

/-- What a group makes of a document with an overlay laid over it: the overlay must be an object
without other keys, and the fields of the merged object are read. -/
theorem group_laid_eq_valid (hkeys : base.map Prod.fst = keys.map Key.document) :
    group name keys readFields location (laid (.obj base) overlay) = .valid x ↔
      ∃ given, (overlay = some (.obj given) ∨ overlay = none ∧ given = []) ∧
        (∀ key ∈ given.map Prod.fst, key ∈ base.map Prod.fst) ∧
        readFields location (overlayFields base given) = .valid x := by
  have hunknown : ∀ given, unknownKeys keys (overlayFields base given) = [] ↔
      ∀ key ∈ given.map Prod.fst, key ∈ base.map Prod.fst := by
    intro given
    have hall : ∀ key ∈ keys,
        (field? (overlayFields base given) key.document).isSome = true := by
      intro key hkey
      rw [isSome_field?_iff, mem_keys_overlayFields, hkeys]
      exact Or.inl (List.mem_map_of_mem hkey)
    rw [unknownKeys_eq_nil hall, ← hkeys]
    constructor
    · exact fun h key hkey => h key (mem_keys_overlayFields.mpr (Or.inr hkey))
    · exact fun h key hkey => (mem_keys_overlayFields.mp hkey).elim id (h key)
  rw [group_eq_valid]
  constructor
  · rintro ⟨fields, hfields, hread, hknown⟩
    obtain ⟨given, hgiven, rfl⟩ := laid_eq_obj hfields
    exact ⟨given, hgiven, (hunknown given).mp hknown, hread⟩
  · rintro ⟨given, hgiven, hknown, hread⟩
    refine ⟨overlayFields base given, ?_, hread, (hunknown given).mpr hknown⟩
    rcases hgiven with rfl | ⟨rfl, rfl⟩
    · exact laid_obj base given
    · rw [laid_none, laid_obj]

/-- The fields of a group are read member by member, and its document has the members in order. -/
structure ReadsMembers (members : List (Member kinds α)) (document : α → Fields)
    (readFields : List String → Fields → Checked α) : Prop where
  document_eq : ∀ x, document x = members.map fun m => m.entry x
  nodup : (members.map fun m => m.key.document).Nodup
  succeeds_iff : ∀ location fields, (readFields location fields).Succeeds ↔
    ∀ m ∈ members, (m.read location fields).Succeeds
  valid : ∀ location fields x, readFields location fields = .valid x →
    ∀ m ∈ members, m.read location fields = .valid (m.field x)
  congr : ∀ location fields fields', (∀ m ∈ members,
    m.read location fields = m.read location fields') →
      readFields location fields = readFields location fields'

namespace ReadsMembers

variable {members : List (Member kinds α)} {document : α → Fields}

theorem document_keys (h : ReadsMembers members document readFields) (x : α) :
    (document x).map Prod.fst = (members.map Member.key).map Key.document := by
  rw [h.document_eq, List.map_map, List.map_map]
  rfl

theorem document_nodup (h : ReadsMembers members document readFields) (x : α) :
    ((document x).map Prod.fst).Nodup := by
  rw [h.document_keys, List.map_map]
  exact h.nodup

theorem field (h : ReadsMembers members document readFields) (x : α) {m : Member kinds α}
    (hm : m ∈ members) : field? (document x) m.key.document = some (m.document (m.field x)) := by
  rw [field?_eq_some_iff (h.document_nodup x), h.document_eq]
  exact List.mem_map.mpr ⟨m, hm, rfl⟩

/-- The keys of a group are all in a merged object, so the others in it are unknown. -/
theorem unknownKeys_overlayFields (h : ReadsMembers members document readFields) (x : α)
    (given : Fields) :
    unknownKeys (members.map Member.key) (overlayFields (document x) given) =
      ((overlayFields (document x) given).map Prod.fst).filter
        (! ((document x).map Prod.fst).contains ·) := by
  rw [h.document_keys]
  refine unknownKeys_eq_filter fun key hkey => ?_
  rw [isSome_field?_iff, mem_keys_overlayFields, h.document_keys]
  exact Or.inl (List.mem_map_of_mem hkey)

end ReadsMembers

/-- A group lays overlays leaf by leaf, member by member. -/
theorem lays_group {members : List (Member kinds α)} {document : α → Fields}
    {rule : α → Option Value → Prop} (h : ReadsMembers members document readFields)
    (hrule : ∀ old overlay, rule old overlay ↔
      ∀ m ∈ members, m.rule (m.field old) (overlay.bind (·.get? m.key.document))) :
    Lays kinds rule (group name (members.map Member.key) readFields)
      fun x => .obj (document x) := by
  have hkeys := h.document_keys
  have hbase := h.document_nodup
  have hfield : ∀ x, ∀ m ∈ members,
      field? (document x) m.key.document = some (m.document (m.field x)) :=
    fun x m hm => h.field x hm
  have hentries : ∀ {P : String × Value → Prop} (x : α),
      (∀ entry ∈ document x, P entry) ↔ ∀ m ∈ members, P (m.entry x) := by
    intro P x
    rw [h.document_eq, List.forall_mem_map]
  have hmerged : ∀ {old : α} {given : Fields} {location : List String},
      Sound kinds (.obj (document old)) → (Value.obj given).Keyed →
      ((readFields location (overlayFields (document old) given)).Succeeds ↔
        (∀ member ∈ document old, ∀ v, field? given member.1 = some v →
          Fits (below member.1 kinds) member.2 v) ∧ rule old (some (.obj given))) := by
    intro old given location hold hkeyed
    rw [h.succeeds_iff, hrule, hentries, ← forall₂_and]
    refine forall₂_congr fun m hm => ?_
    rw [Member.read_merged hkeyed (hfield old m hm)]
    exact m.lays.succeeds_iff (hold.member (hfield old m hm)) fun v hv => hkeyed.member hv
  have hsome : ∀ {old : α} {v : Value} {location : List String},
      Sound kinds (.obj (document old)) → v.Keyed →
      ((group name (members.map Member.key) readFields location
          (laid (.obj (document old)) (some v))).Succeeds ↔
        Fits kinds (.obj (document old)) v ∧ rule old (some v)) := by
    intro old v location hold hkeyed
    constructor
    · rintro ⟨x, hx⟩
      obtain ⟨given, hgiven, hknown, hfields⟩ := (group_laid_eq_valid (hkeys old)).mp hx
      obtain rfl : v = .obj given := by simpa using hgiven
      obtain ⟨hfits, hkept⟩ := (hmerged hold hkeyed).mp ⟨x, hfields⟩
      exact ⟨(fits_obj (hbase old)).mpr ⟨hknown, hfits⟩, hkept⟩
    · rintro ⟨hfits, hkept⟩
      obtain ⟨given, rfl⟩ := hfits.obj
      obtain ⟨hknown, hmembers⟩ := (fits_obj (hbase old)).mp hfits
      obtain ⟨x, hx⟩ := (hmerged hold hkeyed).mpr ⟨hmembers, hkept⟩
      exact ⟨x, (group_laid_eq_valid (hkeys old)).mpr ⟨given, Or.inl rfl, hknown, hx⟩⟩
  refine ⟨?_, ?_, ?_⟩
  · intro old overlay location hold hkeyed
    cases overlay with
    | none =>
      -- no overlay is as good as an empty one
      have hempty : Fits kinds (.obj (document old)) (.obj []) :=
        (fits_obj (hbase old)).mpr ⟨by simp, by simp [field?]⟩
      have hsame : rule old (some (.obj [])) ↔ rule old none := by
        rw [hrule, hrule]
        exact Iff.rfl
      rw [laid_none, hsome hold Value.keyed_empty]
      simp [hempty, hsame]
    | some v => simpa using hsome hold (hkeyed v rfl)
  · intro old new overlay location hold hkeyed hnew
    obtain ⟨given, hgiven, -, hfields⟩ := (group_laid_eq_valid (hkeys old)).mp hnew
    have hmember : (Value.obj given).Keyed → Follows kinds (.obj (document old))
        (some (.obj given)) (.obj (document new)) := by
      intro hkeyed
      refine follows_obj ((hentries old).mpr fun m hm => ?_)
      refine ⟨_, hfield new m hm, ?_⟩
      have hm' := h.valid _ _ _ hfields m hm
      rw [Member.read_merged hkeyed (hfield old m hm)] at hm'
      exact m.lays.follows (hold.member (hfield old m hm)) (fun v hv => hkeyed.member hv) hm'
    rcases hgiven with rfl | ⟨rfl, rfl⟩
    · exact hmember (hkeyed _ rfl)
    · exact (hmember Value.keyed_empty).of_empty
  · intro location v new hnew
    obtain ⟨fields, -, hfields, -⟩ := group_eq_valid.mp hnew
    exact sound_obj ((hentries new).mpr fun m hm =>
      Member.sound_of_read (h.valid location fields new hfields m hm))

end

end AuditHours.Weights
