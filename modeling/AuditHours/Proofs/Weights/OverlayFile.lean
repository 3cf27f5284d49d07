import AuditHours.Proofs.Files.Places
import AuditHours.Proofs.Files.Writing
import AuditHours.Proofs.Json.DigitRows
import AuditHours.Proofs.Stage
import AuditHours.Proofs.Weights.LeafByLeaf

/-!
What becomes of an overlay file. The file is read, and then the table of the run is there and valid,
or the file is refused as a configuration under the path that was asked for. This holds whether or
not the path leads to a file, and whatever bytes the file holds, except for the texts in which the
reader comes upon a whole number of more than `Number.maxDigits` digits before it finds any other
fault. These end the run with the reader's own error.
-/
namespace AuditHours.Weights

open Json Run

def overlayIn (tree : Files.Tree) (path : String) : Except Failure Value :=
  match tree.readDocument (.ofString path) with
  | .error failure => .error (documentFailure path failure)
  | .ok (.obj fields) => .ok (.obj fields)
  | .ok v => .error (.config path (.notObject (kindName v)))

/-- The table of a run, with the overlay of a file in a tree if one is named. -/
def tableIn (tree : Files.Tree) : Option String → Except Failure Table
  | none => .ok .standard
  | some path => (overlayIn tree path).bind fun overlay =>
    (Table.standard.merge overlay).mapError (overlayFailure path)

def overlayReads (config : Option String) : List Action :=
  config.toList.map fun path => .readOverlay (.ofString path)

theorem inWorld_loadOverlay (path : String) (world : World) :
    ∃ records, (loadOverlay path).inWorld world = (overlayIn world.tree path, { world with
      records
      actions := world.actions ++ [.readOverlay (.ofString path)] }) := by
  unfold loadOverlay overlayIn
  rw [inWorld_bind_ok (inWorld_act _ _), inWorld_bind_ok (inWorld_get _)]
  cases world.tree.readDocument (.ofString path) with
  | error failure => exact ⟨_, rfl⟩
  | ok v =>
    cases v with
    | null | bool | int | real | str | arr | obj => exact ⟨_, rfl⟩

/-- Building the table reads the overlay. -/
theorem inWorld_tableFor (config : Option String) (world : World) :
    ∃ records, (tableFor config).inWorld world = (tableIn world.tree config, { world with
      records
      actions := world.actions ++ overlayReads config }) := by
  cases config with
  | none => exact ⟨world.records, by simp [tableFor, tableIn, overlayReads]⟩
  | some path =>
    obtain ⟨records, hload⟩ := inWorld_loadOverlay path world
    unfold tableFor tableIn
    simp only []
    cases hoverlay : overlayIn world.tree path with
    | error failure =>
      rw [hoverlay] at hload
      exact ⟨records, inWorld_bind_error hload⟩
    | ok overlay =>
      rw [hoverlay] at hload
      rw [inWorld_bind_ok hload]
      cases hmerge : Table.standard.merge overlay with
      | error fault =>
        refine ⟨records, (inWorld_bind_error (inWorld_ofResult _ _ _)).trans ?_⟩
        simp only [Except.bind, hmerge]
        rfl
      | ok table =>
        simp only [Except.bind, hmerge]
        rw [inWorld_bind_ok (inWorld_ofResult _ _ _)]
        exact ⟨_, rfl⟩

theorem inWorld_tableFor_fst (config : Option String) (world : World) :
    ((tableFor config).inWorld world).1 = tableIn world.tree config := by
  obtain ⟨records, hrun⟩ := inWorld_tableFor config world
  rw [hrun]

/-! ### The outcome -/

/-- The table of a run is valid, or the overlay is refused as a configuration under its path. -/
def Settled (path : String) (result : Except Failure Table) : Prop :=
  (∃ table, result = .ok table ∧ table.weights.Valid ∧ table.weights.InOrder) ∨
    ∃ cause, result = .error (.config path cause)

variable {tree : Files.Tree} {path : String}

/-- The text of a path that does not hold the character zero does not hold it either. -/
theorem readDocument_ne_zeroCharacter (tree : Files.Tree) (hpath : '\x00' ∉ path.toList) :
    tree.readDocument (.ofString path) ≠ .error (.unreadable (.file .zeroCharacter)) := by
  have htaken : '\x00' ∉ (Files.Path.ofString path).text.toList := by
    rwa [Files.Path.mem_text_ofString_iff (by decide) (by decide)]
  have hread := tree.readText_ne_zeroCharacter htaken
  unfold Files.Tree.readDocument
  split
  · next failure hfailure =>
    rw [hfailure] at hread
    simpa using hread
  · next text htext => cases Json.read text <;> simp [Except.mapError]

theorem tableIn_some (tree : Files.Tree) (path : String) : tableIn tree (some path) =
    (overlayIn tree path).bind fun overlay =>
      (Table.standard.merge overlay).mapError (overlayFailure path) := rfl

theorem tableIn_of_failure {failure : Files.DocumentFailure}
    (h : tree.readDocument (.ofString path) = .error failure) :
    tableIn tree (some path) = .error (documentFailure path failure) := by
  rw [tableIn_some]
  unfold overlayIn
  rw [h]
  rfl

/-- A file that cannot be read as a document is refused, unless a number has too many digits. -/
theorem settled_of_failure {failure : Files.DocumentFailure} (hpath : '\x00' ∉ path.toList)
    (h : tree.readDocument (.ofString path) = .error failure)
    (hdigits : ∀ count, failure ≠ .malformed (.tooManyDigits count)) :
    Settled path (tableIn tree (some path)) := by
  right
  refine ⟨.document failure, ?_⟩
  have hzero := readDocument_ne_zeroCharacter tree hpath
  rw [h] at hzero
  have hfailure : documentFailure path failure = .config path (.document failure) := by
    unfold documentFailure
    split
    · exact absurd rfl hzero
    · next count => exact absurd rfl (hdigits count)
    · rfl
  rw [tableIn_of_failure h, hfailure]

/-- The working directory is no document. -/
theorem ne_empty_of_document {v : Value}
    (hworking : tree.lookup? tree.workingDirectory = some .directory)
    (h : tree.readDocument (.ofString path) = .ok v) : path ≠ "" := by
  rintro rfl
  unfold Files.Tree.readDocument at h
  split at h
  · simp at h
  · next text htext =>
    obtain ⟨place, bytes, hlocate, hfile, -⟩ := Files.Tree.readText_eq_ok.mp htext
    rw [Files.Tree.locate_eq hlocate] at hfile
    change tree.lookup? tree.workingDirectory = _ at hfile
    simp [hworking] at hfile

/-- An overlay that is an object is merged into a valid table or refused for its violations. -/
theorem settled_of_object {fields : Fields}
    (hworking : tree.lookup? tree.workingDirectory = some .directory)
    (h : tree.readDocument (.ofString path) = .ok (.obj fields)) :
    Settled path (tableIn tree (some path)) := by
  have hresult : tableIn tree (some path) =
      (Table.standard.merge (.obj fields)).mapError (overlayFailure path) := by
    rw [tableIn_some]
    unfold overlayIn
    rw [h]
    rfl
  rw [hresult]
  cases hmerge : Table.standard.merge (.obj fields) with
  | ok table =>
    have hvalid := Table.MergesTo.valid ⟨_, hmerge⟩ valid_builtIn
    exact Or.inl ⟨table, rfl, hvalid, hvalid.inOrder⟩
  | error fault =>
    have hsome : fields ≠ [] := by
      rintro rfl
      simp [Table.merge, Value.isEmpty] at hmerge
    obtain ⟨first, more, rfl⟩ := Table.merge_eq_error hsome hmerge
    refine Or.inr ⟨.violations (first :: more), ?_⟩
    simp [Except.mapError, overlayFailure, ne_empty_of_document hworking h]

/-- A document that is no object is refused for its kind. -/
theorem settled_of_other {v : Value} (h : tree.readDocument (.ofString path) = .ok v)
    (hother : ∀ fields, v ≠ .obj fields) : Settled path (tableIn tree (some path)) := by
  refine Or.inr ⟨.notObject (kindName v), ?_⟩
  rw [tableIn_some]
  unfold overlayIn
  rw [h]
  cases v with
  | obj fields => exact absurd rfl (hother fields)
  | null | bool | int | real | str | arr => rfl

/-- An overlay file is settled: whatever it holds, the table of the run is valid or the file is
refused under its path, unless its document has a whole number with too many digits. Such a number
stands in the text of the file, and then the reader's own error escapes. -/
theorem overlay_settled_iff {path : String} {world : World} (hpath : '\x00' ∉ path.toList)
    (hworking : world.tree.lookup? world.tree.workingDirectory = some .directory) :
    (Settled path ((tableFor (some path)).inWorld world).1 ↔
      ∀ count, world.tree.readDocument (.ofString path) ≠
        .error (.malformed (.tooManyDigits count))) ∧
    ∀ count, world.tree.readDocument (.ofString path) = .error (.malformed (.tooManyDigits count)) →
      ((tableFor (some path)).inWorld world).1 = .error (.document (.tooManyDigits count)) ∧
      ∃ text, world.tree.readText (.ofString path) = .ok text ∧ Number.maxDigits < count ∧
        HasRow count text.toList := by
  rw [inWorld_tableFor_fst]
  have hescapes : ∀ count,
      world.tree.readDocument (.ofString path) = .error (.malformed (.tooManyDigits count)) →
      tableIn world.tree (some path) = .error (.document (.tooManyDigits count)) := by
    intro count hcount
    exact tableIn_of_failure hcount
  refine ⟨⟨?_, ?_⟩, ?_⟩
  · intro hsettled count hcount
    rw [hescapes count hcount] at hsettled
    rcases hsettled with ⟨table, htable, -⟩ | ⟨cause, hcause⟩
    · simp at htable
    · simp at hcause
  · intro hdigits
    cases hdocument : world.tree.readDocument (.ofString path) with
    | error failure =>
      refine settled_of_failure hpath hdocument fun count hfailure => ?_
      exact hdigits count (by rw [hdocument, hfailure])
    | ok v =>
      cases v with
      | obj fields => exact settled_of_object hworking hdocument
      | null | bool | int | real | str | arr => exact settled_of_other hdocument nofun
  · intro count hcount
    refine ⟨hescapes count hcount, ?_⟩
    unfold Files.Tree.readDocument at hcount
    split at hcount
    · simp at hcount
    · next text htext =>
      refine ⟨text, htext, hasRow_of_tooManyDigits ?_⟩
      cases hread : Json.read text with
      | ok v => simp [hread, Except.mapError] at hcount
      | error e => simpa [hread, Except.mapError] using hcount

def overlayWorld (bytes : List UInt8) : World where
  tree :=
    { workingDirectory := ["work"]
      entries := [(["work"], .directory), (["work", "w.json"], .file bytes)] }
  network := ⟨[]⟩
  toolchain := ⟨[], none, none, .interrupted⟩
  cache := .empty
  actions := []
  records := []

theorem readDocument_overlayWorld {text : String} (h : '\r' ∉ text.toList) :
    (overlayWorld (Text.encode text)).tree.readDocument (.ofString "w.json") =
      (Json.read text).mapError .malformed := by
  have htext : (overlayWorld (Text.encode text)).tree.readText (.ofString "w.json") = .ok text :=
    Files.Tree.readText_eq_ok.mpr ⟨["work", "w.json"], _, rfl, rfl, Files.textOfBytes_encode h⟩
  unfold Files.Tree.readDocument
  rw [htext]

def negativeOverlay : String := "\x7b\"baseTimes\": \x7b\"large\": -1\x7d\x7d"

/-- An overlay with a negative weight is refused as a configuration. -/
theorem negativeOverlay_settled :
    '\x00' ∉ "w.json".toList ∧
    (overlayWorld (Text.encode negativeOverlay)).tree.lookup? ["work"] = some .directory ∧
    ∃ cause, ((tableFor (some "w.json")).inWorld (overlayWorld (Text.encode negativeOverlay))).1 =
      .error (.config "w.json" cause) := by
  have hread : ((overlayWorld (Text.encode negativeOverlay)).tree.readDocument
      (.ofString "w.json")).isOk = true := by
    decide +kernel
  have hrefused : ((tableFor (some "w.json")).inWorld
      (overlayWorld (Text.encode negativeOverlay))).1.isOk = false := by
    decide +kernel
  have hzero : '\x00' ∉ "w.json".toList := by decide
  have hdigits : ∀ count, (overlayWorld (Text.encode negativeOverlay)).tree.readDocument
      (.ofString "w.json") ≠ .error (.malformed (.tooManyDigits count)) := by
    intro count hcount
    rw [hcount] at hread
    simp [Except.isOk, Except.toBool] at hread
  rcases (overlay_settled_iff hzero rfl).1.mpr hdigits with ⟨table, htable, -⟩ | ⟨cause, hcause⟩
  · rw [htable] at hrefused
    simp [Except.isOk, Except.toBool] at hrefused
  · exact ⟨hzero, rfl, cause, hcause⟩

/-- A whole number with one digit more than may be read. -/
def longNumber : Number.Numeral := ⟨false, List.replicate (Number.maxDigits + 1) '9', none, none⟩

def longOverlay : String := String.ofList (nestedChars "baseTimes" "large" longNumber)

theorem formed_longNumber : longNumber.Formed where
  whole := ⟨by simp [longNumber], by simp [longNumber]⟩
  lead := by simp [longNumber, List.replicate_succ]
  fraction := by simp [longNumber]
  exponent := by simp [longNumber]

theorem read_longOverlay :
    Json.read longOverlay = .error (.tooManyDigits (Number.maxDigits + 1)) := by
  have hlength : longNumber.whole.length = Number.maxDigits + 1 := by simp [longNumber]
  have hstop := readChars_nestedChars "baseTimes" "large" formed_longNumber rfl rfl
    (by rw [hlength]; exact Nat.lt_succ_self _)
  rw [hlength] at hstop
  rw [Json.read, longOverlay, String.toList_ofList, hstop]
  rfl

/-- The overlay leads to neither a table nor a refusal. -/
theorem longOverlay_escapes :
    ((tableFor (some "w.json")).inWorld (overlayWorld (Text.encode longOverlay))).1 =
      .error (.document (.tooManyDigits (Number.maxDigits + 1))) ∧
    ¬ Settled "w.json"
      ((tableFor (some "w.json")).inWorld (overlayWorld (Text.encode longOverlay))).1 := by
  have hreturn : '\r' ∉ longOverlay.toList := by
    simp [longOverlay, nestedChars, carriageReturn_not_mem_stringText,
      Number.Numeral.carriageReturn_not_mem_chars formed_longNumber]
  have hdocument := readDocument_overlayWorld hreturn
  rw [read_longOverlay] at hdocument
  have hresult := (inWorld_tableFor_fst (some "w.json") _).trans (tableIn_of_failure hdocument)
  refine ⟨hresult, ?_⟩
  rw [hresult]
  rintro (⟨table, htable, -⟩ | ⟨cause, hcause⟩)
  · simp at htable
  · simp [documentFailure] at hcause

end AuditHours.Weights
