import AuditHours.Proofs.Files.Making
import AuditHours.Proofs.Report.RoundTrip

/-!
Deliveries of reports. A report for which no output is named is handed back and leaves all files as
they are. Any other report goes to the named output with the suffix of its format, and gets there
exactly if the tree takes a file there; nothing else that was there is disturbed. A delivery that
fails does so with a failure that no estimate has.
-/
namespace AuditHours.Report

open Json Run

/-- The output that is named for a report; one without characters is none. -/
def named (output : Option String) : Option String := output.filter (!·.isEmpty)

def fileFor? (format : Format) (name : String) : Option Files.Path :=
  (Files.Path.ofString name).withSuffix? format.suffix

/-- What a tree has once a report was written to a file: the bytes of its text there, and everything
that was at any other place. -/
structure Written (tree : Files.Tree) (file : Files.Path) (text : String) (after : Files.Tree) :
    Prop where
  read_eq : after.read file = .ok (Text.encode text)
  others : ∀ place entry, place ≠ file.place tree.workingDirectory →
    tree.lookup? place = some entry → after.lookup? place = some entry

/-- What becomes of a report. -/
inductive Delivered (format : Format) (data : Value) (output : Option String) (world : World) :
    Except Failure Delivery → World → Prop
  | unrendered (fault : Fault) (hrender : render format data = .error fault) :
    Delivered format data output world (.error (.report fault)) world
  | handed (text : String) (hrender : render format data = .ok text) (hname : named output = none) :
    Delivered format data output world (.ok (.handed text)) world
  | nameless (name text reason : String) (hrender : render format data = .ok text)
    (hname : named output = some name) (hfile : fileFor? format name = none) :
    Delivered format data output world (.error (.argument reason)) world
  | refused (name text : String) (file : Files.Path) (e : Files.Error) (tree : Files.Tree)
    (hrender : render format data = .ok text) (hname : named output = some name)
    (hfile : fileFor? format name = some file) (hrefuses : ¬ world.tree.Admits file) :
    Delivered format data output world (.error (.file e)) { world with tree }
  | written (name text : String) (file : Files.Path) (tree : Files.Tree)
    (records : List Log.Record) (hrender : render format data = .ok text)
    (hname : named output = some name) (hfile : fileFor? format name = some file)
    (hadmits : world.tree.Admits file) (hwritten : Written world.tree file text tree) :
    Delivered format data output world (.ok (.written file)) { world with tree, records }

theorem written_of_receives {tree after : Files.Tree} {file : Files.Path} {text : String}
    (hadmits : tree.Admits file) (h : tree.Receives file (Text.encode text) after) :
    Written tree file text after := by
  refine ⟨?_, fun place entry hne hentry => h.lookup?_of_ne hadmits.clear hne hentry⟩
  have hlocate : after.locate file = .ok (file.place tree.workingDirectory) := by
    refine Files.Tree.locate_of_follow hadmits.taken ?_
    rw [h.workingDirectory]
    exact Files.Tree.follow_eq_ok.mpr ⟨rfl, h.directories, hadmits.fits⟩
  simp [Files.Tree.read, hlocate, bind, Except.bind, h.file]

/-- A text is written to the file that a tree takes. -/
theorem inWorld_writeFile_cases {file : Files.Path} (text : String) (world : World)
    (hnames : file.names ≠ []) :
    (world.tree.Admits file ∧ ∃ tree, (writeFile file text).inWorld world =
        (.ok (), { world with tree }) ∧ Written world.tree file text tree) ∨
    ¬ world.tree.Admits file ∧ ∃ e tree, (writeFile file text).inWorld world =
        (.error (.file e), { world with tree }) := by
  rw [inWorld_writeFile]
  unfold Files.Tree.writeText
  rcases Files.Tree.writeDeep_cases world.tree (Text.encode text) hnames with
    ⟨hadmits, tree, hwrite, hreceives⟩ | ⟨hrefuses, e, tree, hwrite⟩
  · rw [hwrite]
    exact .inl ⟨hadmits, tree, rfl, written_of_receives hadmits hreceives⟩
  · rw [hwrite]
    exact .inr ⟨hrefuses, e, tree, rfl⟩

theorem names_of_fileFor? {format : Format} {name : String} {file : Files.Path}
    (h : fileFor? format name = some file) : file.names ≠ [] := by
  obtain ⟨last, -, rfl⟩ := Option.map_eq_some_iff.mp h
  simp

theorem delivered (format : Format) (data : Value) (output : Option String) (world : World) :
    ∃ result after, (deliver format data output).inWorld world = (result, after) ∧
      Delivered format data output world result after := by
  unfold deliver
  cases hrender : render format data with
  | error fault => exact ⟨_, _, inWorld_bind_error rfl, .unrendered fault hrender⟩
  | ok text =>
    rw [inWorld_bind_ok (inWorld_ofResult _ _ _), ← named]
    cases hname : named output with
    | none => exact ⟨_, _, rfl, .handed text hrender hname⟩
    | some name =>
      simp only []
      cases hfile : fileFor? format name with
      | none =>
        have hnone : (Files.Path.ofString name).withSuffix? format.suffix = none := hfile
        simp only [destination, hnone]
        exact ⟨_, _, inWorld_bind_error rfl, .nameless name text _ hrender hname hfile⟩
      | some file =>
        have hsome : (Files.Path.ofString name).withSuffix? format.suffix = some file := hfile
        simp only [destination, hsome]
        rw [inWorld_bind_ok (inWorld_ofResult _ _ _)]
        rcases inWorld_writeFile_cases text world (names_of_fileFor? hfile) with
          ⟨hadmits, tree, hwrite, hwritten⟩ | ⟨hrefuses, e, tree, hwrite⟩
        · rw [inWorld_bind_ok hwrite, inWorld_bind_ok (inWorld_log ..)]
          exact ⟨_, _, rfl, .written name text file tree _ hrender hname hfile hadmits hwritten⟩
        · exact ⟨_, _, inWorld_bind_error hwrite,
            .refused name text file e tree hrender hname hfile hrefuses⟩

/-- A report can be delivered: no output is named, or the tree takes a file where it goes. -/
def Deliverable (format : Format) (output : Option String) (tree : Files.Tree) : Prop :=
  ∀ name, named output = some name → ∃ file, fileFor? format name = some file ∧ tree.Admits file

/-- A delivery succeeds exactly if the report can be rendered and delivered. -/
theorem Delivered.ok_iff {format : Format} {data : Value} {output : Option String}
    {world after : World} {result : Except Failure Delivery}
    (h : Delivered format data output world result after) :
    (∃ delivery, result = .ok delivery) ↔
      (∃ text, render format data = .ok text) ∧ Deliverable format output world.tree := by
  unfold Deliverable
  cases h with
  | unrendered fault hrender => simp [hrender]
  | handed text hrender hname => simp [hrender, hname]
  | nameless name text reason hrender hname hfile => simp [hname, hfile]
  | refused name text file e tree hrender hname hfile hrefuses => simp [hname, hfile, hrefuses]
  | written name text file tree records hrender hname hfile hadmits hwritten =>
    simp [hrender, hname, hfile, hadmits]

/-- A delivery fails with no failure that an estimate has. -/
theorem Delivered.escapes {format : Format} {data : Value} {output : Option String}
    {world after : World} {failure : Failure}
    (h : Delivered format data output world (.error failure) after) :
    (∃ fault, failure = .report fault) ∨ (∃ reason, failure = .argument reason) ∨
      ∃ e, failure = .file e := by
  cases h with
  | unrendered fault hrender => exact .inl ⟨fault, rfl⟩
  | nameless name text reason hrender hname hfile => exact .inr (.inl ⟨reason, rfl⟩)
  | refused name text file e tree hrender hname hfile hrefuses => exact .inr (.inr ⟨e, rfl⟩)

end AuditHours.Report
