import Mathlib.Algebra.BigOperators.Group.Finset.Basic
import Mathlib.Algebra.BigOperators.Group.Finset.Piecewise

/-!
# Ledgers

A quantity is kept in total and, part by part, in numbered accounts.  What is entered in the
total and in one account keeps the two in agreement, and so does a list of entries that are
first summed up by account.

## Main definitions

* `Ledger.credit` — an account after an entry.
* `Ledger.Balanced` — the total is the sum of the accounts.
* `Ledger.sum_groups` — the entries of a list, summed up by account.
-/

namespace Ledger

open Finset

universe u v
variable {M : Type u} {α : Type v}

/-- One account is changed. -/
def update (of : ℕ → M) (i : ℕ) (f : M → M) : ℕ → M := fun j => if j = i then f (of j) else of j

@[simp] theorem update_self (of : ℕ → M) (i : ℕ) (f : M → M) : update of i f i = f (of i) :=
  if_pos rfl

theorem update_of_ne {i j : ℕ} (H : j ≠ i) (of : ℕ → M) (f : M → M) : update of i f j = of j :=
  if_neg H

variable [AddCommMonoid M]

/-- The total is the sum of the first `n` accounts. -/
def Balanced (n : ℕ) (total : M) (of : ℕ → M) : Prop := total = ∑ i ∈ range n, of i

/-- An entry in one account. -/
theorem sum_update_add {n i : ℕ} (hi : i < n) (of : ℕ → M) (x : M) :
    ∑ j ∈ range n, update of i (· + x) j = (∑ j ∈ range n, of j) + x := by
  have hsplit : ∀ j, update of i (· + x) j = of j + if j = i then x else 0 := by
    intro j
    by_cases h : j = i
    · rw [h, update_self, if_pos rfl]
    · rw [update_of_ne h, if_neg h, add_zero]
  rw [sum_congr rfl fun j _ => hsplit j, sum_add_distrib, sum_ite_eq' (range n) i fun _ => x,
    if_pos (mem_range.mpr hi)]

/-- **What is entered in the total and in an account keeps the balance.** -/
theorem Balanced.post {n i : ℕ} {total : M} {of : ℕ → M} (H : Balanced n total of) (hi : i < n)
    (x : M) : Balanced n (total + x) (update of i (· + x)) := by
  rw [Balanced, sum_update_add hi, ← H]

/-- The entries of a list by account are all its entries. -/
theorem sum_groups (entries : List α) (account : α → ℕ) (amount : α → M) {n : ℕ}
    (H : ∀ a ∈ entries, account a < n) :
    ∑ i ∈ range n, ((entries.filter fun a => account a = i).map amount).sum =
      (entries.map amount).sum := by
  induction entries with
  | nil => simp
  | cons a entries ih =>
      have hhead : ∀ i, (((a :: entries).filter fun a => account a = i).map amount).sum =
          (if account a = i then amount a else 0) +
            ((entries.filter fun a => account a = i).map amount).sum := by
        intro i
        by_cases h : account a = i <;> simp [h]
      rw [sum_congr rfl fun i _ => hhead i, sum_add_distrib, sum_ite_eq (range n) (account a),
        if_pos (mem_range.mpr (H a List.mem_cons_self)),
        ih fun b hb => H b (List.mem_cons_of_mem a hb), List.map_cons, List.sum_cons]

end Ledger
