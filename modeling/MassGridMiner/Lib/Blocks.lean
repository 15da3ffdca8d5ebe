import Mathlib.Algebra.BigOperators.Group.Finset.Basic
import Mathlib.Algebra.Order.BigOperators.Group.Finset
import Mathlib.Order.Interval.Finset.Nat

/-!
# Consecutive blocks

An array is divided into blocks, one right behind the other, and a list has their sizes.  A block
is taken out when what is behind it is moved over it, in the array and in the list.

## Main definitions

* `Blocks.memmove` — a part of an array is moved.
* `Blocks.start`, `Blocks.InBlock` — where a block starts, and what is in it.
* `Blocks.start_erase_of_le`, `Blocks.start_erase_of_ge`, `Blocks.sum_memmove` — the blocks, and a
  sum over the array, when one is taken out.
-/

namespace Blocks

/-- `memmove` of `count` elements of an array. -/
def memmove {α : Type*} (dst src count : ℕ) (f : ℕ → α) (i : ℕ) : α :=
  if dst ≤ i ∧ i < dst + count then f (i - dst + src) else f i

/-- Where a block starts. -/
def start (size : ℕ → ℕ) (i : ℕ) : ℕ := ∑ j ∈ Finset.range i, size j

/-- A place is in a block. -/
def InBlock (size : ℕ → ℕ) (j i : ℕ) : Prop := start size j ≤ i ∧ i < start size j + size j

/-- The sizes without one of the blocks. -/
def erase (size : ℕ → ℕ) (d j : ℕ) : ℕ := if j < d then size j else size (j + 1)

section
variable {α : Type*} {size size' : ℕ → ℕ} {d i j k n : ℕ} {f : ℕ → α}

theorem memmove_of_lt {dst src count : ℕ} (hi : i < dst) : memmove dst src count f i = f i :=
  if_neg fun h => Nat.not_lt.mpr h.1 hi

theorem memmove_add {dst src count : ℕ} (hi : i < count) :
    memmove dst src count f (dst + i) = f (src + i) := by
  rw [memmove, if_pos ⟨Nat.le_add_right _ _, Nat.add_lt_add_left hi _⟩, Nat.add_sub_cancel_left,
    Nat.add_comm]

@[simp] theorem start_zero (size : ℕ → ℕ) : start size 0 = 0 := rfl

theorem start_succ (size : ℕ → ℕ) (i : ℕ) : start size (i + 1) = start size i + size i :=
  Finset.sum_range_succ size i

theorem start_congr (H : ∀ j < i, size' j = size j) : start size' i = start size i :=
  Finset.sum_congr rfl fun j hj => H j (Finset.mem_range.mp hj)

theorem start_mono (size : ℕ → ℕ) (h : i ≤ j) : start size i ≤ start size j :=
  Finset.sum_le_sum_of_subset (Finset.range_mono h)

/-- A block ends before a later one starts. -/
theorem start_add_le (size : ℕ → ℕ) (h : i < j) : start size i + size i ≤ start size j :=
  start_succ size i ▸ start_mono size h

theorem InBlock.lt_of_lt (H : InBlock size j i) (hi : i < start size d) : j < d := by
  refine Nat.lt_of_not_le fun hdj => ?_
  have hle := start_mono size hdj
  have hj := H.1
  omega

theorem InBlock.gt_of_ge (H : InBlock size j i) (hi : start size d + size d ≤ i) : d < j := by
  refine Nat.lt_of_not_le fun hjd => ?_
  have hj := H.2
  rcases Nat.eq_or_lt_of_le hjd with rfl | hjd
  · omega
  · have hle := start_add_le size hjd
    omega

theorem InBlock.congr (H : InBlock size j i) (hsame : ∀ k ≤ j, size' k = size k) :
    InBlock size' j i := by
  rw [InBlock, start_congr fun k hk => hsame k (Nat.le_of_lt hk), hsame j (Nat.le_refl j)]
  exact H

/-! ## One block is taken out -/

theorem start_erase_of_le (h : i ≤ d) : start (erase size d) i = start size i :=
  start_congr fun _ hj => if_pos (Nat.lt_of_lt_of_le hj h)

theorem start_erase_of_ge (size : ℕ → ℕ) (h : d ≤ i) :
    start (erase size d) i + size d = start size (i + 1) := by
  induction i, h using Nat.le_induction with
  | base => rw [start_erase_of_le (Nat.le_refl d), start_succ]
  | succ i h ih =>
      rw [start_succ, start_succ _ (i + 1), ← ih, erase, if_neg (Nat.not_lt.mpr h)]
      omega

theorem InBlock.erase_of_lt (H : InBlock size j i) (hj : j < d) : InBlock (erase size d) j i :=
  H.congr fun _ hk => if_pos (Nat.lt_of_le_of_lt hk hj)

theorem InBlock.erase_of_gt (H : InBlock size (j + 1) (i + size d)) (hj : d ≤ j) :
    InBlock (erase size d) j i := by
  have hstart := start_erase_of_ge size hj
  have hsize : erase size d j = size (j + 1) := if_neg (Nat.not_lt.mpr hj)
  obtain ⟨hle, hlt⟩ := H
  rw [InBlock, hsize]
  omega

/-- A sum over an array, when a part of it is taken out. -/
theorem sum_memmove {M : Type*} [AddCommMonoid M] (g : α → M) (f : ℕ → α) (a n m : ℕ) :
    ∑ i ∈ Finset.range (a + m), g (memmove a (a + n) m f i) +
        ∑ i ∈ Finset.range n, g (f (a + i)) =
      ∑ i ∈ Finset.range (a + n + m), g (f i) := by
  have hbefore : ∑ i ∈ Finset.range a, g (memmove a (a + n) m f i) =
      ∑ i ∈ Finset.range a, g (f i) :=
    Finset.sum_congr rfl fun i hi => by
      rw [memmove_of_lt (Finset.mem_range.mp hi)]
  have hbehind : ∑ i ∈ Finset.range m, g (memmove a (a + n) m f (a + i)) =
      ∑ i ∈ Finset.range m, g (f (a + n + i)) :=
    Finset.sum_congr rfl fun i hi => by
      rw [memmove_add (Finset.mem_range.mp hi)]
  rw [Finset.sum_range_add, hbefore, hbehind, Finset.sum_range_add _ (a + n),
    Finset.sum_range_add _ a]
  exact add_right_comm _ _ _

end

end Blocks
