import AuditHours.Text.Character
import Mathlib.Data.List.DropRight
import Mathlib.Data.List.Forall2

/-!
Results that may be errors, lists, and trimmed text. A result of two parts is there only if both
parts are, and the results of all items of a list are there exactly if that of each item is.
Trimming a second time changes nothing.
-/
namespace AuditHours

variable {α β ε ε' : Type}

@[simp]
theorem mapError_eq_ok {f : ε → ε'} {result : Except ε α} {value : α} :
    result.mapError f = .ok value ↔ result = .ok value := by
  cases result with
  | error e => exact ⟨nofun, nofun⟩
  | ok found => exact ⟨fun h => by cases h; rfl, fun h => by cases h; rfl⟩

@[simp]
theorem toOption_eq_some {result : Except ε α} {value : α} :
    result.toOption = some value ↔ result = .ok value := by
  cases result <;> simp [Except.toOption]

theorem exists_of_isOk {result : Except ε α} (h : result.isOk = true) :
    ∃ value, result = .ok value := by
  cases result with
  | error e => simp [Except.isOk, Except.toBool] at h
  | ok value => exact ⟨value, rfl⟩

theorem bind_eq_ok {stage : Except ε α} {next : α → Except ε β} {value : β} :
    stage >>= next = .ok value ↔ ∃ found, stage = .ok found ∧ next found = .ok value := by
  cases stage with
  | error e => exact ⟨nofun, nofun⟩
  | ok found => simp [bind, Except.bind]

theorem mapM_eq_ok {f : α → Except ε β} {xs : List α} {ys : List β} :
    xs.mapM f = .ok ys ↔ List.Forall₂ (fun x y => f x = .ok y) xs ys := by
  induction xs generalizing ys with
  | nil => simp [pure, Except.pure, eq_comm]
  | cons x rest ih =>
    rw [List.mapM_cons, List.forall₂_cons_left_iff]
    simp only [bind_eq_ok, ih, pure, Except.pure, Except.ok.injEq]
    simp [eq_comm]

/-- Items that give nothing may be left out. -/
theorem flatMap_filter_filled (f : α → List β) (xs : List α) :
    (xs.filter fun x => !(f x).isEmpty).flatMap f = xs.flatMap f := by
  induction xs with
  | nil => rfl
  | cons x xs ih => cases h : f x <;> simp [h, ih]

/-- An item of a list that got one more is an old item or the new one. -/
theorem getElem?_concat_cases {items : List α} {new item : α} {i : Nat}
    (h : (items ++ [new])[i]? = some item) :
    items[i]? = some item ∨ (i = items.length ∧ item = new) := by
  rw [List.getElem?_append] at h
  split at h
  · exact Or.inl h
  · next hlength =>
    rw [List.getElem?_singleton] at h
    split at h
    · exact Or.inr ⟨by omega, (Option.some.inj h).symm⟩
    · simp at h

namespace Text

/-- What is left of a text has nothing more to drop: its first character is the first that was kept,
and its end is cut already. -/
@[simp]
theorem trimBy_trimBy (p : Char → Bool) (cs : List Char) :
    trimBy p (trimBy p cs) = trimBy p cs := by
  have hbegins : trimBy p cs <+: cs.dropWhile p := List.rdropWhile_prefix p _
  have hfront : (trimBy p cs).dropWhile p = trimBy p cs := by
    rw [List.dropWhile_eq_self_iff]
    intro hfilled
    rw [hbegins.getElem hfilled]
    exact List.dropWhile_get_zero_not p cs (hfilled.trans_le hbegins.length_le)
  calc trimBy p (trimBy p cs) = ((trimBy p cs).dropWhile p).rdropWhile p := rfl
    _ = ((cs.dropWhile p).rdropWhile p).rdropWhile p := by rw [hfront]; rfl
    _ = trimBy p cs := List.rdropWhile_idempotent p _

@[simp]
theorem trim_trim (text : String) : trim (trim text) = trim text := by
  simp [trim]

end Text

end AuditHours
