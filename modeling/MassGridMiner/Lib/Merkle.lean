import Mathlib.Data.Nat.Size
import Mathlib.Data.List.Basic

/-!
# Trees of hashes

A level of the tree is paired off to the next one, and a node that is left over is paired with
itself.  Where only the first leaf changes, what it is paired with at each level is enough to make
the root.

## Main definitions

* `Merkle.pairUp`, `Merkle.root` — a level from the one below it, and the root.
* `Merkle.branch` — what the first leaf is paired with.
* `Merkle.foldl_branch` — it makes the root.
-/

namespace Merkle

universe u
variable {α : Type u} (node : α → α → α)

/-- The next level. -/
def pairUp : List α → List α
  | [] => []
  | [a] => [node a a]
  | a :: b :: rest => node a b :: pairUp rest

theorem length_pairUp (xs : List α) : (pairUp node xs).length = (xs.length + 1) / 2 := by
  fun_induction pairUp node xs with
  | case1 => simp
  | case2 a => simp
  | case3 a b rest ih =>
    simp only [List.length_cons, ih]
    omega

/-- The root over a first leaf and others. -/
def root (a : α) : List α → α
  | [] => a
  | b :: rest => root (node a b) (pairUp node rest)
termination_by xs => xs.length
decreasing_by
  rw [length_pairUp, List.length_cons]
  omega

/-- What the first leaf, and what is made of it, is paired with. -/
def branch : List α → List α
  | [] => []
  | b :: rest => b :: branch (pairUp node rest)
termination_by xs => xs.length
decreasing_by
  rw [length_pairUp, List.length_cons]
  omega

/-- **The branch makes the root** of any first leaf and the others. -/
theorem foldl_branch (a : α) (xs : List α) : (branch node xs).foldl node a = root node a xs := by
  fun_induction root node a xs with
  | case1 a => rw [branch]; rfl
  | case2 a b rest ih => rw [branch, List.foldl_cons, ih]

/-- There are as many levels as the number of the other leaves has binary digits. -/
theorem length_branch (xs : List α) : (branch node xs).length = xs.length.size := by
  fun_induction branch node xs with
  | case1 => rfl
  | case2 b rest ih =>
    have hbit : Nat.bit ((rest.length + 1).bodd) ((rest.length + 1) / 2) = rest.length + 1 := by
      rw [← Nat.div2_val, Nat.bit_bodd_div2]
    have hsize := Nat.size_bit (hbit.trans_ne (Nat.succ_ne_zero _))
    rw [hbit] at hsize
    rw [List.length_cons, List.length_cons, ih, length_pairUp, hsize]

/-- A node that is left over counts twice. -/
theorem pairUp_append_last {xs : List α} {a : α} (hodd : xs.length % 2 = 0) :
    pairUp node (xs ++ [a]) = pairUp node (xs ++ [a, a]) := by
  fun_induction pairUp node xs with
  | case1 => rfl
  | case2 b => simp at hodd
  | case3 b c rest ih =>
    simp only [List.length_cons] at hodd
    simp only [List.cons_append, pairUp, ih (by omega)]

end Merkle
