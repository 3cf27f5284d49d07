import AuditHours.Log.Logger
import Mathlib.Data.List.Pairwise

/-!
The loggers above a logger. On its climb a record meets only loggers whose names are beginnings of
the name it started from, the nearest first. If no two dots of that name follow each other it meets
every such logger that has been made, so the first one of a kind on the climb is the nearest of its
kind. Of dots in a row only every second one divides, and then a logger may be passed over.
-/
namespace AuditHours.Log

/-- A logger lies at or above another one: it is the same one, the topmost one, or its name goes on
in the other's behind a dot. -/
def AtOrAbove (upper lower : String) : Prop :=
  upper = lower ∨ upper = "" ∨ ∃ rest, lower.toList = upper.toList ++ '.' :: rest

/-- A logger is the nearest of its kind to another one: it is at or above it, and at or below every
other one of its kind that is. -/
structure Nearest (kind : String → Bool) (name n : String) : Prop where
  of_kind : kind n = true
  atOrAbove : AtOrAbove n name
  below : ∀ other, kind other = true → AtOrAbove other name → AtOrAbove other n

def DotsApart (name : List Char) : Prop := ¬ ['.', '.'] <:+: name

namespace AtOrAbove

variable {a b : String}

theorem refl (a : String) : AtOrAbove a a := Or.inl rfl

theorem eq_of_empty (h : AtOrAbove a "") : a = "" := by
  rcases h with h | h | ⟨rest, hrest⟩
  · exact h
  · exact h
  · simp at hrest

theorem antisymm (hab : AtOrAbove a b) (hba : AtOrAbove b a) : a = b := by
  rcases hab with h | rfl | ⟨rest, hrest⟩
  · exact h
  · exact (eq_of_empty hba).symm
  · rcases hba with h | rfl | ⟨other, hother⟩
    · exact h.symm
    · simp at hrest
    · have hshorter := congrArg List.length hrest
      have hlonger := congrArg List.length hother
      simp only [List.length_append, List.length_cons] at hshorter hlonger
      omega

end AtOrAbove

/-! ### Beginnings of names -/

section

variable {name beginning : List Char}

theorem beginnings_cons_of_ne {c : Char} (hc : c ≠ '.') (rest : List Char) :
    beginnings (c :: rest) = beginnings rest := by
  cases rest <;> simp [beginnings, hc]

/-- A beginning ends before a dot of the name; both are given backwards. -/
theorem of_mem_beginnings (h : beginning ∈ beginnings name) :
    beginning ≠ [] ∧ ∃ rest, name = rest ++ '.' :: beginning := by
  fun_induction beginnings name with
  | case1 c rest ih =>
    rcases List.mem_cons.mp h with rfl | h
    · exact ⟨by simp, [], rfl⟩
    · obtain ⟨hfilled, more, hrest⟩ := ih h
      exact ⟨hfilled, '.' :: c :: more, by rw [hrest]; rfl⟩
  | case2 c rest _ ih =>
    obtain ⟨hfilled, more, hrest⟩ := ih h
    exact ⟨hfilled, c :: more, by rw [hrest]; rfl⟩
  | case3 => simp at h

theorem DotsApart.of_append (front : List Char) {rest : List Char} (h : DotsApart (front ++ rest)) :
    DotsApart rest :=
  fun hdots => h (hdots.trans (List.suffix_append front rest).isInfix)

theorem DotsApart.of_beginning (h : DotsApart name) (hrest : ∃ rest, name = rest ++ '.' :: beginning) :
    DotsApart beginning := by
  obtain ⟨rest, rfl⟩ := hrest
  exact DotsApart.of_append (rest ++ ['.']) (by simpa using h)

/-- Every dot divides where no two of them follow each other. -/
theorem mem_beginnings_of_dotsApart (hname : DotsApart name) (hfilled : beginning ≠ [])
    (h : ∃ rest, name = rest ++ '.' :: beginning) : beginning ∈ beginnings name := by
  obtain ⟨rest, rfl⟩ := h
  induction rest with
  | nil =>
    obtain ⟨c, tail, rfl⟩ := List.exists_cons_of_ne_nil hfilled
    exact List.mem_cons_self ..
  | cons c rest ih =>
    have hrest := ih (hname.of_append [c])
    by_cases hc : c = '.'
    · subst hc
      -- the character behind this dot is no dot, so it is skipped without loss
      cases rest with
      | nil => exact absurd ⟨[], beginning, rfl⟩ hname
      | cons next rest =>
        have hnext : next ≠ '.' := by
          rintro rfl
          exact hname ⟨[], rest ++ '.' :: beginning, rfl⟩
        rw [List.cons_append, beginnings_cons_of_ne hnext] at hrest
        exact List.mem_cons_of_mem _ hrest
    · rw [List.cons_append, beginnings_cons_of_ne hc]
      exact hrest

/-- What comes behind a beginning in the list of them are its own beginnings. -/
theorem beginnings_behind {before after : List (List Char)} (hname : DotsApart name)
    (h : beginnings name = before ++ beginning :: after) : after = beginnings beginning := by
  fun_induction beginnings name generalizing before with
  | case1 c rest ih =>
    have hc : c ≠ '.' := by
      rintro rfl
      exact hname ⟨[], rest, rfl⟩
    cases before with
    | nil =>
      obtain ⟨rfl, rfl⟩ := List.cons.inj h
      exact (beginnings_cons_of_ne hc rest).symm
    | cons first before =>
      exact ih (hname.of_append ['.', c]) (List.cons.inj h).2
  | case2 c rest _ ih => exact ih (hname.of_append [c]) h
  | case3 => simp at h

end

/-! ### The climb -/

namespace Registry

variable {registry : Registry}

section

variable {name beginning : List Char}

theorem above_of_none
    (h : (beginnings name).find? (fun b => registry.contains (String.ofList b.reverse)) = none) :
    registry.above name = [] := by
  rw [above]
  split
  · rename_i next hnext
    rw [h] at hnext
    cases hnext
  · rfl

/-- The loggers above one have been made, and their names are beginnings of its name. -/
theorem of_mem_above (h : beginning ∈ registry.above name) :
    registry.contains (String.ofList beginning.reverse) = true ∧ beginning ≠ [] ∧
      ∃ rest, name = rest ++ '.' :: beginning := by
  fun_induction Registry.above registry name with
  | case1 name next hnext ih =>
    obtain ⟨hfilled, rest, hrest⟩ := of_mem_beginnings (List.mem_of_find?_eq_some hnext)
    rcases List.mem_cons.mp h with rfl | h
    · exact ⟨by simpa using List.find?_some hnext, hfilled, rest, hrest⟩
    · obtain ⟨hmade, hother, more, hmore⟩ := ih h
      exact ⟨hmade, hother, rest ++ '.' :: more, by rw [hrest, hmore]; simp⟩
  | case2 name hnone => simp at h

/-- Of the loggers above one each lies above those before it. -/
theorem pairwise_above (registry : Registry) (name : List Char) :
    (registry.above name).Pairwise fun lower upper => ∃ rest, lower = rest ++ '.' :: upper := by
  fun_induction Registry.above registry name with
  | case1 name next hnext ih =>
    exact List.pairwise_cons.mpr ⟨fun upper hupper => (of_mem_above hupper).2.2, ih⟩
  | case2 name hnone => exact List.Pairwise.nil

/-- Where dots do not follow each other, the loggers above one are all beginnings of its name under
which a logger has been made. -/
theorem above_eq_filter (hname : DotsApart name) : registry.above name =
    (beginnings name).filter fun b => registry.contains (String.ofList b.reverse) := by
  fun_induction Registry.above registry name with
  | case1 name next hnext ih =>
    obtain ⟨hmade, before, after, hsplit, hbefore⟩ := List.find?_eq_some_iff_append.mp hnext
    have hnone : before.filter (fun b => registry.contains (String.ofList b.reverse)) = [] :=
      List.filter_eq_nil_iff.mpr fun b hb => by simpa using hbefore b hb
    have hapart : DotsApart next :=
      hname.of_beginning (of_mem_beginnings (List.mem_of_find?_eq_some hnext)).2
    rw [hsplit, List.filter_append, hnone, List.nil_append, List.filter_cons, if_pos hmade,
      ih hapart, beginnings_behind hname hsplit]
  | case2 name hnone =>
    refine (List.filter_eq_nil_iff.mpr fun b hb => ?_).symm
    simpa using List.find?_eq_none.mp hnone b hb

end

variable {name n : String}

theorem climb_eq (registry : Registry) (h : name ≠ "") : registry.climb name =
    name :: (registry.above name.toList.reverse).map (String.ofList ·.reverse) ++ [""] := by
  unfold climb
  rw [if_neg (by simpa using h)]

theorem atOrAbove_of_backwards {lower upper : List Char} (h : ∃ rest, lower = rest ++ '.' :: upper) :
    AtOrAbove (String.ofList upper.reverse) (String.ofList lower.reverse) := by
  obtain ⟨rest, rfl⟩ := h
  exact Or.inr (Or.inr ⟨rest.reverse, by simp⟩)

/-- A record meets its own logger and the topmost one, and between them those above its own. -/
theorem mem_climb_iff : n ∈ registry.climb name ↔
    n = name ∨ n = "" ∨ n.toList.reverse ∈ registry.above name.toList.reverse := by
  by_cases hempty : name = ""
  · subst hempty
    have hnone : registry.above [] = [] := above_of_none rfl
    simp [climb, hnone]
  · rw [climb_eq registry hempty]
    simp only [List.cons_append, List.mem_cons, List.mem_append, List.mem_map, List.not_mem_nil,
      or_false]
    constructor
    · rintro (h | ⟨b, hb, rfl⟩ | h)
      · exact Or.inl h
      · exact Or.inr (Or.inr (by simpa using hb))
      · exact Or.inr (Or.inl h)
    · rintro (h | h | h)
      · exact Or.inl h
      · exact Or.inr (Or.inr h)
      · exact Or.inr (Or.inl ⟨_, h, by simp⟩)

/-- A record meets only loggers at or above its own. -/
theorem atOrAbove_of_mem_climb (h : n ∈ registry.climb name) : AtOrAbove n name := by
  rcases mem_climb_iff.mp h with rfl | rfl | habove
  · exact AtOrAbove.refl n
  · exact Or.inr (Or.inl rfl)
  · simpa using atOrAbove_of_backwards (of_mem_above habove).2.2

/-- Where dots do not follow each other, a record meets every logger at or above its own that has
been made. -/
theorem mem_climb_of_atOrAbove (hname : DotsApart name.toList) (hmade : registry.contains n = true)
    (h : AtOrAbove n name) : n ∈ registry.climb name := by
  rw [mem_climb_iff]
  rcases h with rfl | rfl | ⟨rest, hrest⟩
  · exact Or.inl rfl
  · exact Or.inr (Or.inl rfl)
  · by_cases hempty : n = ""
    · exact Or.inr (Or.inl hempty)
    · have hapart : DotsApart name.toList.reverse := fun hdots => hname (by
        simpa using List.reverse_infix.mpr hdots)
      have hfilled : n.toList.reverse ≠ [] := by simpa using hempty
      have hbeginning := mem_beginnings_of_dotsApart hapart hfilled ⟨rest.reverse, by simp [hrest]⟩
      refine Or.inr (Or.inr ?_)
      rw [above_eq_filter hapart, List.mem_filter]
      exact ⟨hbeginning, by simpa using hmade⟩

/-- On its climb a record meets lower loggers before higher ones. -/
theorem pairwise_climb (registry : Registry) (name : String) :
    (registry.climb name).Pairwise fun lower upper => AtOrAbove upper lower := by
  by_cases hempty : name = ""
  · subst hempty
    exact List.pairwise_singleton ..
  · have hclimb := fun n (h : n ∈ registry.climb name) => atOrAbove_of_mem_climb h
    rw [climb_eq registry hempty] at hclimb ⊢
    rw [List.cons_append, List.pairwise_cons, List.pairwise_append, List.pairwise_map]
    refine ⟨fun upper hupper => hclimb upper (List.mem_cons_of_mem _ hupper), ?_,
      List.pairwise_singleton .., ?_⟩
    · exact (registry.pairwise_above _).imp atOrAbove_of_backwards
    · rintro lower - upper hupper
      exact Or.inr (Or.inl (List.mem_singleton.mp hupper))

/-- The first logger of a kind that a record meets is the nearest of its kind, if dots do not follow
each other and all loggers of the kind have been made. -/
theorem find?_climb_iff {kind : String → Bool} (hname : DotsApart name.toList)
    (hmade : ∀ n, kind n = true → registry.contains n = true) :
    (registry.climb name).find? kind = some n ↔ Nearest kind name n := by
  have hfirst : ∀ n, (registry.climb name).find? kind = some n → Nearest kind name n := by
    intro n hn
    obtain ⟨hkind, before, after, hclimb, hbefore⟩ := List.find?_eq_some_iff_append.mp hn
    have hpairwise := registry.pairwise_climb name
    refine ⟨hkind, atOrAbove_of_mem_climb (List.mem_of_find?_eq_some hn), fun other hother habove => ?_⟩
    have hmem := mem_climb_of_atOrAbove hname (hmade other hother) habove
    rw [hclimb] at hmem hpairwise
    rcases List.mem_append.mp hmem with hmem | hmem
    · exact absurd hother (by simpa using hbefore other hmem)
    · rcases List.mem_cons.mp hmem with rfl | hmem
      · exact AtOrAbove.refl other
      · exact (List.pairwise_cons.mp (List.pairwise_append.mp hpairwise).2.1).1 other hmem
  refine ⟨hfirst n, fun hnearest => ?_⟩
  have hmem := mem_climb_of_atOrAbove hname (hmade n hnearest.of_kind) hnearest.atOrAbove
  cases hfind : (registry.climb name).find? kind with
  | none => exact absurd hnearest.of_kind (List.find?_eq_none.mp hfind n hmem)
  | some first =>
    obtain ⟨hkind, habove, hbelow⟩ := hfirst first hfind
    rw [(hbelow n hnearest.of_kind hnearest.atOrAbove).antisymm (hnearest.below first hkind habove)]

end Registry

end AuditHours.Log
