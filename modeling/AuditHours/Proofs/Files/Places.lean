import AuditHours.Files.TextFile
import AuditHours.Proofs.Basic
import AuditHours.Proofs.Files.PathText

/-!
Places of paths. A path leads to a place in every tree with the same working directory: an ordinary
name goes down, a double dot goes up. A tree that follows a path arrives there, and collapsing a
path does not change where it leads. A tree can be cut down to one file without losing the way to
it.
-/
namespace AuditHours.Files

def enter (place : Place) (name : String) : Place :=
  if name = ".." then place.dropLast else place ++ [name]

/-- Ordinary names lead straight down. -/
theorem foldl_enter_of_ordinary {names : List String} (h : ∀ name ∈ names, name ≠ "..")
    (start : Place) : names.foldl enter start = start ++ names := by
  induction names generalizing start with
  | nil => simp
  | cons name rest ih =>
    rw [List.foldl_cons, ih fun other hother => h other (List.mem_cons_of_mem _ hother)]
    simp [enter, h name (List.mem_cons_self ..)]

/-- Each name leads down by one step at most. -/
theorem length_foldl_enter_le (names : List String) (start : Place) :
    (names.foldl enter start).length ≤ start.length + names.length := by
  induction names generalizing start with
  | nil => exact Nat.le_refl _
  | cons name rest ih =>
    have henter : (enter start name).length ≤ start.length + 1 := by
      unfold enter
      split
      · rw [List.length_dropLast]
        omega
      · simp
    have hrest := ih (enter start name)
    rw [List.foldl_cons, List.length_cons]
    omega

namespace Path

def place (workingDirectory : Place) (p : Path) : Place :=
  p.names.foldl enter (if p.isAbsolute then [] else workingDirectory)

/-- A name on a stack leads to where the name itself leads to from there. -/
theorem foldl_enter_pushName {anchor : Anchor} {start : Place}
    (hstart : anchor = .relative ∨ start = []) (stack : List String) (name : String) :
    (pushName anchor stack name).reverse.foldl enter start =
      enter (stack.reverse.foldl enter start) name := by
  unfold pushName
  split
  · next hdots =>
    subst hdots
    cases stack with
    | nil =>
      rcases hstart with rfl | rfl
      · rfl
      · simp only []
        split <;> rfl
    | cons top below =>
      simp only []
      split
      · simp [List.foldl_append]
      · next htop => simp [List.foldl_append, enter, htop]
  · simp [List.foldl_append]

/-- Collapsing a path does not change where it leads. -/
theorem place_collapse (workingDirectory : Place) (p : Path) :
    p.collapse.place workingDirectory = p.place workingDirectory := by
  have hstart : p.anchor = .relative ∨
      (if p.isAbsolute then [] else workingDirectory) = ([] : Place) := by
    by_cases h : p.anchor = .relative
    · exact Or.inl h
    · exact Or.inr (by simp [isAbsolute, h])
  have hfold : ∀ (names stack : List String),
      (names.foldl (pushName p.anchor) stack).reverse.foldl enter
          (if p.isAbsolute then [] else workingDirectory) =
        names.foldl enter
          (stack.reverse.foldl enter (if p.isAbsolute then [] else workingDirectory)) := by
    intro names
    induction names with
    | nil => exact fun stack => rfl
    | cons name rest ih =>
      intro stack
      rw [List.foldl_cons, ih, foldl_enter_pushName hstart, List.foldl_cons]
  exact hfold p.names []

end Path

namespace Tree

variable {tree other : Tree} {start place : Place} {names : List String} {path : Path}

/-- Names that a tree follows lead to where they lead in every tree. -/
theorem follow_eq (h : tree.follow start names = .ok place) : place = names.foldl enter start := by
  induction names generalizing start with
  | nil =>
    cases h
    rfl
  | cons name rest ih =>
    unfold follow at h
    split at h
    · simp at h
    · simp at h
    · split at h
      · next hdots =>
        rw [ih h, List.foldl_cons]
        simp [enter, hdots]
      · next hname =>
        split at h
        · simp at h
        · rw [ih h, List.foldl_cons]
          simp [enter, hname]

/-- A tree that has the directories of another one follows what that one follows. -/
theorem follow_of_directories
    (hdirectories : ∀ place, tree.lookup? place = some .directory →
      other.lookup? place = some .directory)
    (h : tree.follow start names = .ok place) : other.follow start names = .ok place := by
  induction names generalizing start with
  | nil => exact h
  | cons name rest ih =>
    unfold follow at h ⊢
    split at h
    · simp at h
    · simp at h
    · next hstart =>
      rw [hdirectories start hstart]
      split at h
      · next hdots => rw [if_pos hdots, ih h]
      · next hname =>
        split at h
        · simp at h
        · next hlength => rw [if_neg hname, if_neg hlength, ih h]

/-- What a located path names stands at the place that the path leads to. -/
theorem locate_eq (h : tree.locate path = .ok place) :
    place = path.place tree.workingDirectory := by
  unfold locate at h
  split at h
  · simp at h
  · split at h
    · simp at h
    · simp only [] at h
      exact follow_eq (mapError_eq_ok.mp h)

theorem locate_of_directories
    (hdirectories : ∀ place, tree.lookup? place = some .directory →
      other.lookup? place = some .directory)
    (hworking : other.workingDirectory = tree.workingDirectory)
    (h : tree.locate path = .ok place) : other.locate path = .ok place := by
  unfold locate at h ⊢
  rw [hworking]
  split at h
  · simp at h
  · next htaken =>
    split at h
    · simp at h
    · next hlength =>
      rw [if_neg htaken, if_neg hlength]
      exact mapError_eq_ok.mpr (follow_of_directories hdirectories (mapError_eq_ok.mp h))

/-- A path whose text can be read names a file with the bytes of the text. -/
theorem readText_eq_ok {text : String} : tree.readText path = .ok text ↔
    ∃ place bytes, tree.locate path = .ok place ∧ tree.lookup? place = some (.file bytes) ∧
      textOfBytes bytes = .ok text := by
  unfold readText read
  cases hlocate : tree.locate path with
  | error e => simp [bind, Except.bind]
  | ok place =>
    simp only [bind, Except.bind, Except.ok.injEq, exists_and_left, exists_eq_left']
    cases hentry : tree.lookup? place with
    | none => simp
    | some entry =>
      cases entry with
      | directory => simp
      | file bytes => simp

/-- Every text that can be read is that of an entry. -/
theorem exists_entry_of_readText {text : String} (h : tree.readText path = .ok text) :
    ∃ entry ∈ tree.entries, ∃ bytes, entry.2 = .file bytes ∧ textOfBytes bytes = .ok text := by
  obtain ⟨place, bytes, -, hfile, hbytes⟩ := readText_eq_ok.mp h
  unfold lookup? at hfile
  split at hfile
  · simp at hfile
  · obtain ⟨entry, hentry, hkind⟩ := Option.map_eq_some_iff.mp hfile
    exact ⟨entry, List.mem_of_find?_eq_some hentry, bytes, hkind, hbytes⟩

/-- Only a path with the character zero is taken by no file system. -/
theorem readText_ne_zeroCharacter (hpath : '\x00' ∉ path.text.toList) :
    tree.readText path ≠ .error (.file .zeroCharacter) := by
  have hlocate : tree.locate path ≠ .error .zeroCharacter := by
    unfold locate
    rw [if_neg (by simpa using hpath)]
    split
    · simp
    · simp only []
      intro h
      cases hfollow : tree.follow (if path.isAbsolute then [] else tree.workingDirectory)
          path.names <;> rw [hfollow] at h <;> cases h
  unfold readText read
  cases hresult : tree.locate path with
  | error e =>
    rw [hresult] at hlocate
    simpa [bind, Except.bind] using hlocate
  | ok place =>
    simp only [bind, Except.bind]
    cases tree.lookup? place with
    | none => simp
    | some entry =>
      cases entry with
      | directory => simp
      | file bytes =>
        intro h
        cases htext : textOfBytes bytes <;> simp only [htext] at h <;> cases h

theorem readText_of_zeroCharacter (hpath : '\x00' ∈ path.text.toList) :
    tree.readText path = .error (.file .zeroCharacter) := by
  have hlocate : tree.locate path = .error .zeroCharacter := by
    unfold locate
    rw [if_pos (by simpa using hpath)]
  simp [readText, read, hlocate, bind, Except.bind]

def withOnly (tree : Tree) (place : Place) (bytes : List UInt8) : Tree :=
  { tree with
    entries := (place, .file bytes) :: tree.entries.filter fun entry => entry.2 = .directory }

theorem lookup?_withOnly_self {bytes : List UInt8} (hplace : place ≠ []) :
    (tree.withOnly place bytes).lookup? place = some (.file bytes) := by
  simp [lookup?, withOnly, hplace]

/-- A tree that is cut down to a file holds no other file. -/
theorem eq_of_lookup?_withOnly {bytes found : List UInt8} {arrived : Place}
    (h : (tree.withOnly place bytes).lookup? arrived = some (.file found)) : arrived = place := by
  unfold lookup? at h
  split at h
  · simp at h
  · obtain ⟨entry, hentry, hfile⟩ := Option.map_eq_some_iff.mp h
    have harrived := List.find?_some hentry
    rcases List.mem_cons.mp (List.mem_of_find?_eq_some hentry) with rfl | hkept
    · simpa using Eq.symm (eq_of_beq harrived)
    · have hdirectory := (List.mem_filter.mp hkept).2
      simp [hfile] at hdirectory

/-- A tree that is cut down to a file keeps its directories. -/
theorem lookup?_withOnly_directory {bytes found : List UInt8} {arrived : Place}
    (hfile : tree.lookup? place = some (.file found))
    (h : tree.lookup? arrived = some .directory) :
    (tree.withOnly place bytes).lookup? arrived = some .directory := by
  have hne : place ≠ arrived := by
    rintro rfl
    simp [hfile] at h
  unfold lookup? at h ⊢
  split at h
  · next hroot => simp [hroot]
  · next hroot =>
    obtain ⟨entry, hentry, hdirectory⟩ := Option.map_eq_some_iff.mp h
    have hmem : entry ∈ tree.entries.filter fun entry => entry.2 = .directory :=
      List.mem_filter.mpr ⟨List.mem_of_find?_eq_some hentry, by simpa using hdirectory⟩
    obtain ⟨kept, hkept⟩ := Option.isSome_iff_exists.mp
      (List.find?_isSome.mpr ⟨entry, hmem, List.find?_some hentry⟩)
    have hdirectory := (List.mem_filter.mp (List.mem_of_find?_eq_some hkept)).2
    rw [if_neg hroot, withOnly, List.find?_cons_of_neg (by simpa using hne), hkept]
    simpa using hdirectory

@[simp]
theorem lookup?_put_of_ne {arrived : Place} (entry : Entry) (h : arrived ≠ place) :
    (tree.put place entry).lookup? arrived = tree.lookup? arrived := by
  have hfind : (tree.put place entry).entries.find? (·.1 == arrived) =
      tree.entries.find? (·.1 == arrived) := by
    rw [put, List.find?_cons_of_neg (by simpa using Ne.symm h), List.find?_filter]
    congr 1
    funext other
    by_cases hother : other.1 = arrived
    · simp [hother, h]
    · simp [hother]
  unfold lookup?
  rw [hfind]

variable {text : String}

/-- The text of a file can be replaced when the tree is cut down to the file. -/
theorem readText_withOnly {old : String} {bytes : List UInt8} (h : tree.readText path = .ok old)
    (hbytes : textOfBytes bytes = .ok text) :
    (tree.withOnly (path.place tree.workingDirectory) bytes).readText path = .ok text := by
  obtain ⟨place, found, hlocate, hfile, _⟩ := readText_eq_ok.mp h
  obtain rfl := locate_eq hlocate
  have hplace : path.place tree.workingDirectory ≠ [] := by
    intro hroot
    simp [lookup?, hroot] at hfile
  have hdirectories : ∀ arrived, tree.lookup? arrived = some .directory →
      (tree.withOnly (path.place tree.workingDirectory) bytes).lookup? arrived = some .directory :=
    fun arrived harrived => lookup?_withOnly_directory hfile harrived
  refine readText_eq_ok.mpr ⟨_, bytes, ?_, lookup?_withOnly_self hplace, hbytes⟩
  exact locate_of_directories hdirectories rfl hlocate

/-- A tree that is cut down to a file has no text at any other place. -/
theorem place_of_readText_withOnly {bytes : List UInt8}
    (h : (tree.withOnly place bytes).readText path = .ok text) :
    path.place tree.workingDirectory = place := by
  obtain ⟨arrived, found, hlocate, hfile, _⟩ := readText_eq_ok.mp h
  rw [← eq_of_lookup?_withOnly hfile]
  exact (locate_eq hlocate).symm

end Tree

end AuditHours.Files
