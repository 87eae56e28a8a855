import Mathlib

/-!
# Objects that `new` makes and `delete` ends

The objects of one class, by the numbers that `new` gave them: a number is never given twice, and
`none` is where an object was deleted. `delete` of a null pointer does nothing, and of a pointer to
what is not there has no result.

* `object?_new`, `object?_delete`, `object?_put`: what is where afterwards.
-/

namespace PacketMachine.Lib

variable {α β : Type*}

/-- The object behind a pointer. -/
def object? (xs : List (Option α)) (i : Nat) : Option α := (xs[i]?).join

/-- `delete` of a pointer, which may be null. -/
def delete (xs : List (Option α)) : Option Nat → Option (List (Option α))
  | none => some xs
  | some i => (object? xs i).map fun _ => xs.set i none

section Objects

variable {xs ys : List (Option α)} {i j : Nat} {a : α}

theorem object?_lt (h : object? xs i = some a) : i < xs.length := by
  by_contra hge
  rw [object?, List.getElem?_eq_none (Nat.not_lt.mp hge)] at h
  cases h

theorem object?_length (xs : List (Option α)) : object? xs xs.length = none := by
  rw [object?, List.getElem?_eq_none (le_refl _)]
  rfl

/-- `new`, or `new` and `delete` at once. -/
theorem object?_new (xs : List (Option α)) (o : Option α) (i : Nat) :
    object? (xs ++ [o]) i = if i = xs.length then o else object? xs i := by
  unfold object?
  rcases Nat.lt_trichotomy i xs.length with h | h | h
  · rw [if_neg (Nat.ne_of_lt h), List.getElem?_append_left h]
  · rw [if_pos h, h, List.getElem?_concat_length]
    rfl
  · rw [if_neg (Nat.ne_of_gt h), List.getElem?_eq_none (by simp; omega),
      List.getElem?_eq_none (Nat.le_of_lt h)]

/-- An object is written. -/
theorem object?_put (h : object? xs i = some a) (o : Option α) (j : Nat) :
    object? (xs.set i o) j = if j = i then o else object? xs j := by
  unfold object?
  rw [List.getElem?_set]
  by_cases hij : i = j
  · subst hij
    rw [if_pos rfl, if_pos (object?_lt h), if_pos rfl]
    rfl
  · rw [if_neg hij, if_neg (Ne.symm hij)]

theorem object?_modify (xs : List (Option α)) (i : Nat) (f : α → α) (j : Nat) :
    object? (xs.modify i (Option.map f)) j =
      if i = j then (object? xs j).map f else object? xs j := by
  unfold object?
  rw [List.getElem?_modify]
  split
  · rcases xs[j]? with _ | _ | _ <;> rfl
  · rcases xs[j]? with _ | _ | _ <;> rfl

/-- A pointer to an object can be deleted. -/
theorem delete_some (h : object? xs i = some a) : delete xs (some i) = some (xs.set i none) := by
  simp only [delete, h, Option.map_some]

theorem object?_delete (h : delete xs (some i) = some ys) (j : Nat) :
    object? ys j = if j = i then none else object? xs j := by
  obtain ⟨a, ha, rfl⟩ := Option.map_eq_some_iff.mp h
  exact object?_put ha none j

end Objects

end PacketMachine.Lib
