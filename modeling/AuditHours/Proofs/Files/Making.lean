import AuditHours.Proofs.Files.Writing

/-!
Making files and the directories above them. A file can be made exactly if its path is short enough,
nothing but directories stands on the way to it, and its own place is neither a directory nor a
place on that way. Places on the way where nothing stands become directories, the file gets its
bytes, and everything else stays as it was.
-/
namespace AuditHours.Files

/-! ### Ways -/

/-- The places that names lead through before the last one. -/
def crossed (start : Place) : List String → List Place
  | [] => []
  | name :: rest => start :: crossed (enter start name) rest

@[simp]
theorem crossed_concat (start : Place) (names : List String) (name : String) :
    crossed start (names ++ [name]) = crossed start names ++ [names.foldl enter start] := by
  induction names generalizing start with
  | nil => rfl
  | cons first rest ih => simp [crossed, ih]

/-- A name that a directory takes; a double dot is none that it has to take. -/
def Fits (name : String) : Prop := name ≠ ".." → name.utf8ByteSize ≤ maxNameBytes

instance (name : String) : Decidable (Fits name) :=
  inferInstanceAs (Decidable (name ≠ ".." → name.utf8ByteSize ≤ maxNameBytes))

namespace Path

def start (workingDirectory : Place) (p : Path) : Place :=
  if p.isAbsolute then [] else workingDirectory

def way (workingDirectory : Place) (p : Path) : List Place :=
  crossed (p.start workingDirectory) p.names

/-- The way to a path leads through its parent. -/
theorem way_eq (workingDirectory : Place) {p : Path} (hnames : p.names ≠ []) :
    p.way workingDirectory =
      p.parent.way workingDirectory ++ [p.parent.place workingDirectory] := by
  obtain ⟨anchor, names⟩ := p
  obtain rfl | ⟨above, name, rfl⟩ := List.eq_nil_or_concat names
  · exact absurd rfl hnames
  · unfold way parent
    simp only [List.concat_eq_append, crossed_concat, List.dropLast_concat]
    rfl

/-- A path that a file system takes. -/
structure Taken (p : Path) : Prop where
  clean : '\x00' ∉ p.text.toList
  short : p.text.utf8ByteSize ≤ maxPathBytes

instance (p : Path) : Decidable p.Taken :=
  decidable_of_iff ('\x00' ∉ p.text.toList ∧ p.text.utf8ByteSize ≤ maxPathBytes)
    ⟨fun h => ⟨h.1, h.2⟩, fun h => ⟨h.clean, h.short⟩⟩

/-- The text of a path goes on from that of its parent, unless the parent is the single dot. -/
theorem text_parent (p : Path) :
    p.parent.text = "." ∨ ∃ rest, p.text = p.parent.text ++ rest := by
  obtain ⟨anchor, names⟩ := p
  obtain rfl | ⟨above, name, rfl⟩ := List.eq_nil_or_concat names
  · exact .inr ⟨"", by simp [parent]⟩
  · rw [List.concat_eq_append]
    by_cases hdot : anchor = .relative ∧ above = []
    · exact .inl (by simp [parent, text, hdot])
    · have hparent : (⟨anchor, above ++ [name]⟩ : Path).parent.text =
          anchor.text ++ "/".intercalate above := by
        simp [parent, text, hdot]
      right
      rw [hparent]
      by_cases habove : above = []
      · exact ⟨name, by simp [text, habove]⟩
      · refine ⟨"/" ++ name, ?_⟩
        have hjoin : "/".intercalate (above ++ [name]) =
            "/".intercalate above ++ ("/" ++ name) := by
          rw [String.intercalate_append_of_ne_nil habove (by simp)]
          simp [String.append_assoc]
        simp [text, hjoin, String.append_assoc]

theorem Taken.parent {p : Path} (h : p.Taken) : p.parent.Taken := by
  rcases p.text_parent with hdot | ⟨rest, htext⟩
  · exact ⟨by simp [hdot], by rw [hdot]; decide⟩
  · have hclean := h.clean
    have hshort := h.short
    rw [htext] at hclean hshort
    rw [String.utf8ByteSize_append] at hshort
    refine ⟨fun hmem => hclean ?_, by omega⟩
    rw [String.toList_append]
    exact List.mem_append_left _ hmem

end Path

namespace Tree

variable {tree after : Tree} {start place : Place} {names : List String} {path : Path}

/-! ### Following names -/

theorem follow_cons_eq_ok {name : String} : tree.follow start (name :: names) = .ok place ↔
    tree.lookup? start = some .directory ∧ Fits name ∧
      tree.follow (enter start name) names = .ok place := by
  rw [follow]
  unfold Fits enter
  cases tree.lookup? start with
  | none => simp
  | some entry =>
    cases entry with
    | file bytes => simp
    | directory =>
      by_cases hdots : name = ".."
      · simp [hdots]
      · by_cases hlong : maxNameBytes < name.utf8ByteSize
        · simp [hdots, hlong, Nat.not_le.mpr hlong]
        · simp [hdots, hlong, Nat.le_of_not_lt hlong]

/-- Names are followed exactly if they fit and lead through directories. -/
theorem follow_eq_ok : tree.follow start names = .ok place ↔
    place = names.foldl enter start ∧
      (∀ above ∈ crossed start names, tree.lookup? above = some .directory) ∧
      ∀ name ∈ names, Fits name := by
  induction names generalizing start with
  | nil => simp [follow, crossed, eq_comm]
  | cons name rest ih =>
    rw [follow_cons_eq_ok, ih]
    simp only [crossed, List.foldl_cons, List.forall_mem_cons]
    constructor
    · rintro ⟨hstart, hname, hplace, hcrossed, hrest⟩
      exact ⟨hplace, ⟨hstart, hcrossed⟩, hname, hrest⟩
    · rintro ⟨hplace, ⟨hstart, hcrossed⟩, hname, hrest⟩
      exact ⟨hstart, hname, hplace, hcrossed, hrest⟩

/-- A place where no file stands: a directory, or nothing at all. -/
def Clear (tree : Tree) (place : Place) : Prop :=
  ∀ bytes, tree.lookup? place ≠ some (.file bytes)

theorem clear_iff_all : tree.Clear place ↔ (tree.lookup? place).all (· == .directory) = true := by
  unfold Clear
  cases tree.lookup? place with
  | none => simp
  | some entry => cases entry <;> simp

instance (tree : Tree) (place : Place) : Decidable (tree.Clear place) :=
  decidable_of_iff _ clear_iff_all.symm

/-- Names that are not followed lead through a file, do not fit, or miss a directory. -/
theorem follow_eq_error {fault : Fault} (h : tree.follow start names = .error fault) :
    fault = .noEntry ∨ (∃ above ∈ crossed start names, ¬ tree.Clear above) ∨
      ∃ name ∈ names, ¬ Fits name := by
  induction names generalizing start with
  | nil => simp [follow] at h
  | cons name rest ih =>
    have hrest : tree.follow (enter start name) rest = .error fault →
        fault = .noEntry ∨ (∃ above ∈ crossed start (name :: rest), ¬ tree.Clear above) ∨
          ∃ other ∈ name :: rest, ¬ Fits other := by
      intro hfault
      rcases ih hfault with hmissing | ⟨above, hmem, hfile⟩ | ⟨other, hmem, hlong⟩
      · exact .inl hmissing
      · exact .inr (.inl ⟨above, List.mem_cons_of_mem _ hmem, hfile⟩)
      · exact .inr (.inr ⟨other, List.mem_cons_of_mem _ hmem, hlong⟩)
    unfold follow at h
    split at h
    · exact .inl (Except.error.inj h).symm
    · next bytes hstart =>
      exact .inr (.inl ⟨start, List.mem_cons_self .., fun hclear => hclear bytes hstart⟩)
    · split at h
      · next hdots =>
        refine hrest ?_
        rwa [enter, if_pos hdots]
      · next hname =>
        split at h
        · next hlong =>
          refine .inr (.inr ⟨name, List.mem_cons_self .., fun hfits => ?_⟩)
          exact Nat.not_lt.mpr (hfits hname) hlong
        · refine hrest ?_
          rwa [enter, if_neg hname]

theorem locate_of_taken (h : path.Taken) : tree.locate path =
    (tree.follow (path.start tree.workingDirectory) path.names).mapError
      (.refused · path.text) := by
  unfold locate
  rw [if_neg (by simpa using h.clean), if_neg (Nat.not_lt.mpr h.short)]
  rfl

theorem locate_of_follow (htaken : path.Taken)
    (h : tree.follow (path.start tree.workingDirectory) path.names = .ok place) :
    tree.locate path = .ok place := by
  rw [locate_of_taken htaken, h]
  rfl

theorem locate_of_fault {fault : Fault} (htaken : path.Taken)
    (h : tree.follow (path.start tree.workingDirectory) path.names = .error fault) :
    tree.locate path = .error (.refused fault path.text) := by
  rw [locate_of_taken htaken, h]
  rfl

theorem taken_of_locate (h : tree.locate path = .ok place) : path.Taken := by
  unfold locate at h
  split at h
  · simp at h
  · next hclean =>
    split at h
    · simp at h
    · next hshort => exact ⟨by simpa using hclean, Nat.le_of_not_lt hshort⟩

/-! ### Making directories -/

/-- A tree in which directories stand at some places and everything else is as it was. -/
structure Gains (tree : Tree) (places : List Place) (after : Tree) : Prop where
  workingDirectory : after.workingDirectory = tree.workingDirectory
  directories : ∀ place ∈ places, after.lookup? place = some .directory
  kept : ∀ place, place ∉ places → after.lookup? place = tree.lookup? place

namespace Gains

variable {places others : List Place} {middle : Tree}

theorem refl (h : ∀ place ∈ places, tree.lookup? place = some .directory) :
    tree.Gains places tree := ⟨rfl, h, fun _ _ => rfl⟩

theorem trans (h : tree.Gains places middle) (hnext : middle.Gains others after) :
    tree.Gains (places ++ others) after := by
  refine ⟨hnext.workingDirectory.trans h.workingDirectory, ?_, ?_⟩
  · intro place hplace
    by_cases hother : place ∈ others
    · exact hnext.directories place hother
    · rw [hnext.kept place hother]
      exact h.directories place ((List.mem_append.mp hplace).resolve_right hother)
  · intro place hplace
    rw [List.mem_append, not_or] at hplace
    rw [hnext.kept place hplace.2, h.kept place hplace.1]

/-- New directories stand in the place of no file. -/
theorem clear_iff (h : tree.Gains places middle) (hclear : ∀ place ∈ places, tree.Clear place) :
    middle.Clear place ↔ tree.Clear place := by
  by_cases hplace : place ∈ places
  · refine iff_of_true (fun bytes => ?_) (hclear place hplace)
    simp [h.directories place hplace]
  · unfold Clear
    rw [h.kept place hplace]

end Gains

def ensureDirectory (tree : Tree) (path : Path) : Except Error Unit × Tree :=
  match tree.makeDirectory path with
  | .ok tree => (.ok (), tree)
  | .error e => tree.orDirectory path e

theorem makeDirectory_of_fault {fault : Fault} (htaken : path.Taken)
    (h : tree.follow (path.start tree.workingDirectory) path.names = .error fault) :
    tree.makeDirectory path = .error (.refused fault path.text) := by
  unfold makeDirectory
  rw [locate_of_fault htaken h]
  rfl

theorem orDirectory_of_fault {fault : Fault} (htaken : path.Taken) (e : Error)
    (h : tree.follow (path.start tree.workingDirectory) path.names = .error fault) :
    tree.orDirectory path e = (.error e, tree) := by
  have hnone : tree.isDirectory path = false := by
    simp [isDirectory, at?, locate_of_fault htaken h]
  simp [orDirectory, hnone]

/-- A directory whose place can be reached is there in the end, unless a file stands in its place.
-/
theorem ensureDirectory_of_follow (htaken : path.Taken)
    (h : tree.follow (path.start tree.workingDirectory) path.names = .ok place) :
    (tree.Clear place ∧ ∃ after, tree.ensureDirectory path = (.ok (), after) ∧
      tree.Gains [place] after) ∨
    ¬ tree.Clear place ∧ ∃ e, tree.ensureDirectory path = (.error e, tree) := by
  have hplace := locate_of_follow htaken h
  unfold ensureDirectory makeDirectory
  rw [hplace]
  cases hentry : tree.lookup? place with
  | none =>
    have hroot : place ≠ [] := by
      rintro rfl
      simp [lookup?] at hentry
    refine .inl ⟨fun bytes => by simp [hentry], tree.put place .directory, ?_, rfl, ?_, ?_⟩
    · simp [bind, Except.bind, hentry]
    · intro other hother
      obtain rfl := List.mem_singleton.mp hother
      exact lookup?_put tree .directory hroot
    · intro other hother
      exact lookup?_put_of_ne _ fun heq => hother (List.mem_singleton.mpr heq)
  | some entry =>
    have hthere : tree.at? path = some entry := by simp [at?, hplace, hentry]
    cases entry with
    | directory =>
      have his : tree.isDirectory path = true := by simp [isDirectory, hthere]
      refine .inl ⟨fun bytes => by simp [hentry], tree, ?_, rfl, ?_, fun _ _ => rfl⟩
      · simp [bind, Except.bind, hentry, orDirectory, his]
      · intro other hother
        obtain rfl := List.mem_singleton.mp hother
        exact hentry
    | file bytes =>
      have his : tree.isDirectory path = false := by simp [isDirectory, hthere]
      refine .inr ⟨fun hclear => hclear bytes hentry, .refused .alreadyExists path.text, ?_⟩
      simp [bind, Except.bind, hentry, orDirectory, his]

theorem ensureDirectory_of_fault {fault : Fault} (htaken : path.Taken)
    (h : tree.follow (path.start tree.workingDirectory) path.names = .error fault) :
    tree.ensureDirectory path = (.error (.refused fault path.text), tree) := by
  unfold ensureDirectory
  rw [makeDirectory_of_fault htaken h]
  exact orDirectory_of_fault htaken _ h

theorem makeDirectories_of_follow (htaken : path.Taken)
    (h : tree.follow (path.start tree.workingDirectory) path.names = .ok place) (depth : Nat) :
    tree.makeDirectories path depth = tree.ensureDirectory path := by
  have hplace := locate_of_follow htaken h
  unfold ensureDirectory
  cases hmake : tree.makeDirectory path with
  | ok made => cases depth <;> simp [makeDirectories, hmake]
  | error e =>
    have hexists : e = .refused .alreadyExists path.text := by
      unfold makeDirectory at hmake
      rw [hplace] at hmake
      simp only [bind, Except.bind] at hmake
      split at hmake
      · exact (Except.error.inj hmake).symm
      · simp at hmake
    subst hexists
    cases depth <;> simp [makeDirectories, hmake]

theorem makeDirectories_of_noEntry (htaken : path.Taken) (hnames : path.names ≠ [])
    (h : tree.follow (path.start tree.workingDirectory) path.names = .error .noEntry)
    (depth : Nat) :
    tree.makeDirectories path (depth + 1) = match tree.makeDirectories path.parent depth with
      | (.error e, tree) => (.error e, tree)
      | (.ok (), tree) => tree.ensureDirectory path := by
  rw [makeDirectories, makeDirectory_of_fault htaken h]
  simp only [if_neg hnames]
  rfl

theorem makeDirectories_of_fault {fault : Fault} (htaken : path.Taken) (hfault : fault ≠ .noEntry)
    (h : tree.follow (path.start tree.workingDirectory) path.names = .error fault) (depth : Nat) :
    ∃ e, tree.makeDirectories path depth = (.error e, tree) := by
  refine ⟨.refused fault path.text, ?_⟩
  cases depth with
  | zero =>
    rw [makeDirectories, makeDirectory_of_fault htaken h]
    exact orDirectory_of_fault htaken _ h
  | succ depth =>
    rw [makeDirectories, makeDirectory_of_fault htaken h]
    cases fault with
    | noEntry => exact absurd rfl hfault
    | alreadyExists | notDirectory | isDirectory | nameTooLong =>
      exact orDirectory_of_fault htaken _ h

/-- A way with nothing but directories, made or yet to be made, and with names that fit. -/
structure Passable (tree : Tree) (path : Path) (places : List Place) : Prop where
  clear : ∀ place ∈ places, tree.Clear place
  fits : ∀ name ∈ path.names, Fits name

/-- What becomes of making a directory and those above it: they are there if the way is passable,
and else it fails. -/
def Makes (tree : Tree) (path : Path) (depth : Nat) : Prop :=
  let places := path.way tree.workingDirectory ++ [path.place tree.workingDirectory]
  (tree.Passable path places ∧
      ∃ after, tree.makeDirectories path depth = (.ok (), after) ∧ tree.Gains places after) ∨
    ¬ tree.Passable path places ∧ ∃ e after, tree.makeDirectories path depth = (.error e, after)

/-- Where the place can be reached the directories above it are there already. -/
theorem makes_of_follow (htaken : path.Taken)
    (h : tree.follow (path.start tree.workingDirectory) path.names = .ok place) (depth : Nat) :
    tree.Makes path depth := by
  obtain ⟨hplace, hway, hfits⟩ := follow_eq_ok.mp h
  change place = path.place tree.workingDirectory at hplace
  subst hplace
  unfold Makes
  rw [makeDirectories_of_follow htaken h]
  have hgains : tree.Gains (path.way tree.workingDirectory) tree := .refl hway
  have hclear : ∀ above ∈ path.way tree.workingDirectory, tree.Clear above := by
    intro above habove bytes
    simp [hway above habove]
  rcases ensureDirectory_of_follow htaken h with ⟨hlast, after, hensure, hnext⟩ |
    ⟨hfile, e, hensure⟩
  · refine .inl ⟨⟨?_, hfits⟩, after, hensure, hgains.trans hnext⟩
    exact List.forall_mem_append.mpr ⟨hclear, by simpa using hlast⟩
  · refine .inr ⟨fun hpassable => hfile ?_, e, tree, hensure⟩
    exact hpassable.clear _ (List.mem_append_right _ (List.mem_singleton_self _))

/-- A file on the way, or a name that does not fit, ends the making. -/
theorem makes_of_fault {fault : Fault} (htaken : path.Taken) (hfault : fault ≠ .noEntry)
    (h : tree.follow (path.start tree.workingDirectory) path.names = .error fault) (depth : Nat) :
    tree.Makes path depth := by
  obtain ⟨e, hmake⟩ := makeDirectories_of_fault htaken hfault h depth
  refine .inr ⟨fun hpassable => ?_, e, tree, hmake⟩
  rcases follow_eq_error h with hmissing | ⟨above, hmem, hfile⟩ | ⟨name, hmem, hlong⟩
  · exact hfault hmissing
  · exact hfile (hpassable.clear above (List.mem_append_left _ hmem))
  · exact hlong (hpassable.fits name hmem)

/-- A directory that is missing is made behind its parent. -/
theorem makes_of_parent {depth : Nat} (htaken : path.Taken) (hnames : path.names ≠ [])
    (h : tree.follow (path.start tree.workingDirectory) path.names = .error .noEntry)
    (hparent : tree.Makes path.parent depth) : tree.Makes path (depth + 1) := by
  have hway := path.way_eq tree.workingDirectory hnames
  have hsubset : ∀ name ∈ path.parent.names, name ∈ path.names :=
    fun name hname => List.dropLast_subset _ hname
  have hmake := makeDirectories_of_noEntry htaken hnames h depth
  unfold Makes at hparent ⊢
  simp only [← hway] at hparent
  rcases hparent with ⟨hpassable, middle, habove, hgains⟩ | ⟨hblocked, e, middle, habove⟩
  · rw [habove] at hmake
    simp only [] at hmake
    rw [hmake]
    -- the way is there now, so only the last name and the last place can still be in the way
    have hworking := hgains.workingDirectory
    cases hfollow : middle.follow (path.start middle.workingDirectory) path.names with
    | error fault =>
      refine .inr ⟨fun hwhole => ?_, _, middle, ensureDirectory_of_fault htaken hfollow⟩
      have hreached := follow_eq_ok.mpr ⟨rfl, hgains.directories, hwhole.fits⟩
      rw [hworking] at hfollow
      exact nomatch hfollow.symm.trans hreached
    | ok place =>
      obtain ⟨hplace, -, hfits⟩ := follow_eq_ok.mp hfollow
      rw [hworking] at hplace
      change place = path.place tree.workingDirectory at hplace
      subst hplace
      rcases ensureDirectory_of_follow htaken hfollow with ⟨hlast, after, hensure, hnext⟩ |
        ⟨hfile, e, hensure⟩
      · rw [hgains.clear_iff hpassable.clear] at hlast
        refine .inl ⟨⟨?_, hfits⟩, after, hensure, hgains.trans hnext⟩
        exact List.forall_mem_append.mpr ⟨hpassable.clear, by simpa using hlast⟩
      · rw [hgains.clear_iff hpassable.clear] at hfile
        refine .inr ⟨fun hwhole => hfile ?_, e, middle, hensure⟩
        exact hwhole.clear _ (List.mem_append_right _ (List.mem_singleton_self _))
  · rw [habove] at hmake
    refine .inr ⟨fun hpassable => hblocked ⟨?_, ?_⟩, e, middle, hmake⟩
    · exact fun above hmem => hpassable.clear above (List.mem_append_left _ hmem)
    · exact fun name hname => hpassable.fits name (hsubset name hname)

/-- A directory and those above it are there in the end exactly if its way is passable. -/
theorem makes_makeDirectories (htaken : path.Taken) {depth : Nat}
    (hdepth : path.names.length ≤ depth) : tree.Makes path depth := by
  -- a parent has one name less, so the depth is enough for all the directories above
  induction depth generalizing path with
  | zero =>
    have hnames : path.names = [] := List.length_eq_zero_iff.mp (Nat.le_zero.mp hdepth)
    exact makes_of_follow htaken (by rw [hnames]; rfl) 0
  | succ depth ih =>
    cases h : tree.follow (path.start tree.workingDirectory) path.names with
    | ok place => exact makes_of_follow htaken h _
    | error fault =>
      by_cases hfault : fault = .noEntry
      · subst hfault
        have hnames : path.names ≠ [] := by
          intro hnone
          simp [hnone, follow] at h
        refine makes_of_parent htaken hnames h (ih htaken.parent ?_)
        rw [Path.parent, List.length_dropLast]
        omega
      · exact makes_of_fault htaken hfault h _

/-! ### Making files -/

/-- A tree takes a file at a path: its text is one that a file system takes, its names fit, no file
stands on the way, and its own place is no directory and not on the way either. -/
structure Admits (tree : Tree) (path : Path) : Prop where
  taken : path.Taken
  fits : ∀ name ∈ path.names, Fits name
  clear : ∀ place ∈ path.way tree.workingDirectory, tree.Clear place
  not_crossed : path.place tree.workingDirectory ∉ path.way tree.workingDirectory
  not_directory : tree.lookup? (path.place tree.workingDirectory) ≠ some .directory

instance (tree : Tree) (path : Path) : Decidable (tree.Admits path) :=
  decidable_of_iff (path.Taken ∧ (∀ name ∈ path.names, Fits name) ∧
      (∀ place ∈ path.way tree.workingDirectory, tree.Clear place) ∧
      path.place tree.workingDirectory ∉ path.way tree.workingDirectory ∧
      tree.lookup? (path.place tree.workingDirectory) ≠ some .directory)
    ⟨fun ⟨htaken, hfits, hclear, hcrossed, hdirectory⟩ =>
        ⟨htaken, hfits, hclear, hcrossed, hdirectory⟩,
      fun h => ⟨h.taken, h.fits, h.clear, h.not_crossed, h.not_directory⟩⟩

/-- A tree with a new file and the directories on the way to it, and otherwise as it was. -/
structure Receives (tree : Tree) (path : Path) (bytes : List UInt8) (after : Tree) : Prop where
  workingDirectory : after.workingDirectory = tree.workingDirectory
  file : after.lookup? (path.place tree.workingDirectory) = some (.file bytes)
  directories : ∀ place ∈ path.way tree.workingDirectory, after.lookup? place = some .directory
  kept : ∀ place, place ≠ path.place tree.workingDirectory →
    place ∉ path.way tree.workingDirectory → after.lookup? place = tree.lookup? place

variable {bytes : List UInt8}

theorem write_eq (h : tree.locate path = .ok place) : tree.write path bytes =
    if tree.lookup? place = some .directory then .error (.refused .isDirectory path.text)
    else .ok (tree.put place (.file bytes)) := by
  unfold write
  rw [h]
  simp only [bind, Except.bind]
  cases tree.lookup? place with
  | none => rfl
  | some entry => cases entry <;> rfl

theorem write_of_not_located (h : ∀ place, tree.locate path ≠ .ok place) :
    ∃ e, tree.write path bytes = .error e := by
  unfold write
  cases hplace : tree.locate path with
  | error e => exact ⟨e, rfl⟩
  | ok place => exact absurd hplace (h place)

/-- Behind the directories on its way a file is made if its own place is free. -/
theorem write_of_gains {middle : Tree} (htaken : path.Taken)
    (hgains : tree.Gains (path.way tree.workingDirectory) middle)
    (hclear : ∀ place ∈ path.way tree.workingDirectory, tree.Clear place) :
    (tree.Admits path ∧
      ∃ after, middle.write path bytes = .ok after ∧ tree.Receives path bytes after) ∨
    ¬ tree.Admits path ∧ ∃ e, middle.write path bytes = .error e := by
  by_cases hfits : ∀ name ∈ path.names, Fits name
  · have hlocate : middle.locate path = .ok (path.place tree.workingDirectory) := by
      refine locate_of_follow htaken ?_
      rw [hgains.workingDirectory]
      exact follow_eq_ok.mpr ⟨rfl, hgains.directories, hfits⟩
    rw [write_eq hlocate]
    by_cases hdirectory : middle.lookup? (path.place tree.workingDirectory) = some .directory
    · refine .inr ⟨fun hadmits => hadmits.not_directory ?_, _, if_pos hdirectory⟩
      rwa [← hgains.kept _ hadmits.not_crossed]
    · have hroot : path.place tree.workingDirectory ≠ [] := by
        intro hroot
        exact hdirectory (by simp [lookup?, hroot])
      have hcrossed : path.place tree.workingDirectory ∉ path.way tree.workingDirectory :=
        fun hmem => hdirectory (hgains.directories _ hmem)
      refine .inl ⟨⟨htaken, hfits, hclear, hcrossed, ?_⟩, _, if_neg hdirectory,
        hgains.workingDirectory, lookup?_put _ _ hroot, ?_, ?_⟩
      · rwa [← hgains.kept _ hcrossed]
      · intro place hplace
        rw [lookup?_put_of_ne _ (ne_of_mem_of_not_mem hplace hcrossed)]
        exact hgains.directories place hplace
      · intro place hne hplace
        rw [lookup?_put_of_ne _ hne, hgains.kept place hplace]
  · refine .inr ⟨fun hadmits => hfits hadmits.fits, write_of_not_located fun place hlocate => ?_⟩
    rw [locate_of_taken htaken] at hlocate
    exact hfits (follow_eq_ok.mp (mapError_eq_ok.mp hlocate)).2.2

/-- A file is made exactly if the tree takes it. -/
theorem writeDeep_cases (tree : Tree) (bytes : List UInt8) (hnames : path.names ≠ []) :
    (tree.Admits path ∧
      ∃ after, tree.writeDeep path bytes = (.ok (), after) ∧ tree.Receives path bytes after) ∨
    ¬ tree.Admits path ∧ ∃ e after, tree.writeDeep path bytes = (.error e, after) := by
  by_cases htaken : path.Taken
  · have hway := path.way_eq tree.workingDirectory hnames
    have hparent : tree.Makes path.parent path.names.length :=
      makes_makeDirectories htaken.parent (by simp [Path.parent])
    unfold Makes at hparent
    simp only [← hway] at hparent
    rcases hparent with ⟨hpassable, middle, hmake, hgains⟩ | ⟨hblocked, e, middle, hmake⟩
    · rcases write_of_gains htaken hgains hpassable.clear with ⟨hadmits, after, hwrite, hreceives⟩ |
        ⟨hrefuses, e, hwrite⟩
      · exact .inl ⟨hadmits, after, by simp [writeDeep, hmake, hwrite], hreceives⟩
      · exact .inr ⟨hrefuses, e, middle, by simp [writeDeep, hmake, hwrite]⟩
    · refine .inr ⟨fun hadmits => hblocked ⟨hadmits.clear, fun name hname => ?_⟩, e, middle, ?_⟩
      · exact hadmits.fits name (List.dropLast_subset _ hname)
      · simp [writeDeep, hmake]
  · -- such a path fails by the time the file is written, whatever was made of its parent
    refine .inr ⟨fun hadmits => htaken hadmits.taken, ?_⟩
    unfold writeDeep
    split
    · next e middle _ => exact ⟨e, middle, rfl⟩
    · next middle _ =>
      obtain ⟨e, hwrite⟩ : ∃ e, middle.write path bytes = .error e :=
        write_of_not_located fun place hlocate => htaken (taken_of_locate hlocate)
      exact ⟨e, middle, by simp [hwrite]⟩

/-- A new file disturbs nothing that was there, but for the file that it replaces. -/
theorem Receives.lookup?_of_ne {entry : Entry} (h : tree.Receives path bytes after)
    (hclear : ∀ place ∈ path.way tree.workingDirectory, tree.Clear place)
    (hne : place ≠ path.place tree.workingDirectory) (hentry : tree.lookup? place = some entry) :
    after.lookup? place = some entry := by
  by_cases hcrossed : place ∈ path.way tree.workingDirectory
  · cases entry with
    | file found => exact absurd hentry (hclear place hcrossed found)
    | directory => exact h.directories place hcrossed
  · rw [h.kept place hne hcrossed, hentry]

end Tree

end AuditHours.Files
