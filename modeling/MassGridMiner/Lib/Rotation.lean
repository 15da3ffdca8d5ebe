import Mathlib.Data.List.Rotate

/-!
# Going around a list

A loop steps from one place of a list to the next, and from the last to the first.  What it
meets is the list, rotated to the place where it begins.

## Main definitions

* `stepAround l i` — the place after `i`.
* `exists_rotate` — a step moves the first item of the rotation to its end.
-/

universe u
variable {α : Type u}

/-- The next place of a list. -/
def stepAround (l : List α) (i : ℕ) : ℕ := if l.length ≤ i + 1 then 0 else i + 1

variable {l : List α} {i : ℕ}

theorem stepAround_lt (hi : i < l.length) : stepAround l i < l.length := by
  rw [stepAround]
  split <;> omega

theorem rotate_stepAround (hi : i < l.length) : l.rotate (stepAround l i) = l.rotate (i + 1) := by
  rw [stepAround]
  split
  next hle => rw [show i + 1 = l.length by omega, List.rotate_length, List.rotate_zero]
  next => rfl

/-- The item at a place comes first in the rotation, and last after a step. -/
theorem exists_rotate (hi : i < l.length) :
    ∃ rest, l.rotate i = l[i] :: rest ∧ l.rotate (i + 1) = rest ++ [l[i]] := by
  have hrot : l.rotate i = l[i] :: (l.drop (i + 1) ++ l.take i) := by
    rw [List.rotate_eq_drop_append_take hi.le, List.drop_eq_getElem_cons hi, List.cons_append]
  refine ⟨_, hrot, ?_⟩
  rw [← List.rotate_rotate, hrot, List.rotate_cons_succ, List.rotate_zero]
