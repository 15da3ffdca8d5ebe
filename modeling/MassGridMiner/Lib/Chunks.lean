import Mathlib.Data.List.Chain
import Mathlib.Tactic.Ring

/-!
# Ranges in pieces

A range of numbers is cut into pieces of a size and what is left over.  The pieces follow each
other, so that each number of the range is in one of them and no other number is in any.

## Main definitions

* `Chunks.Tiles` — pieces that follow each other from one end of a range to the other.
* `Chunks.chunks` — the pieces of a size, and the rest.
* `Chunks.Tiles.countP` — how many of the pieces have a number.
-/

namespace Chunks

/-- Pieces, by their starts and lengths, that follow each other from `a` to `b`.  None is empty and
none is longer than `c`. -/
inductive Tiles (c : ℕ) : ℕ → ℕ → List (ℕ × ℕ) → Prop
  | nil (a : ℕ) : Tiles c a a []
  | cons {a b len : ℕ} {ps : List (ℕ × ℕ)} (hpos : 0 < len) (hle : len ≤ c)
      (h : Tiles c (a + len) b ps) : Tiles c a b ((a, len) :: ps)

/-- A number that a piece has. -/
def has (k : ℕ) (p : ℕ × ℕ) : Bool := decide (p.1 ≤ k ∧ k < p.1 + p.2)

section
variable {c a b : ℕ} {ps : List (ℕ × ℕ)}

theorem Tiles.le (h : Tiles c a b ps) : a ≤ b := by
  induction h with
  | nil => exact le_rfl
  | cons _ _ _ ih => omega

theorem Tiles.len_le (h : Tiles c a b ps) : ∀ p ∈ ps, 0 < p.2 ∧ p.2 ≤ c := by
  induction h with
  | nil => simp
  | cons hpos hle _ ih => exact List.forall_mem_cons.mpr ⟨⟨hpos, hle⟩, ih⟩

/-- Each number of the range is in one of the pieces, and no other number is in any. -/
theorem Tiles.countP (h : Tiles c a b ps) (k : ℕ) :
    ps.countP (has k) = if a ≤ k ∧ k < b then 1 else 0 := by
  induction h with
  | nil => simp
  | @cons a b len ps hpos _ h ih =>
    have hab := h.le
    simp only [List.countP_cons, ih, has, decide_eq_true_iff]
    -- the number is in the first piece, in front of it, or behind it
    rcases Nat.lt_or_ge k a with hlow | hlow
    · rw [if_neg (by omega), if_neg (by omega), if_neg (by omega)]
    · rcases Nat.lt_or_ge k (a + len) with hmid | hmid
      · rw [if_neg (by omega), if_pos ⟨hlow, hmid⟩, if_pos (by omega)]
      · rw [if_neg (show ¬(a ≤ k ∧ k < a + len) by omega), Nat.add_zero]
        exact if_congr (by omega) rfl rfl

/-- The next piece starts where one ends. -/
theorem Tiles.isChain (h : Tiles c a b ps) : ps.IsChain fun p q => q.1 = p.1 + p.2 := by
  induction h with
  | nil => exact List.isChain_nil
  | cons _ _ h ih =>
    cases h with
    | nil => exact List.isChain_singleton _
    | cons => exact List.isChain_cons_cons.mpr ⟨rfl, ih⟩

end

/-- The pieces of length `c` of `n` numbers from `a` on, and what is left over. -/
def chunks (c a n : ℕ) : List (ℕ × ℕ) :=
  if _h : 0 < c ∧ c ≤ n then (a, c) :: chunks c (a + c) (n - c)
  else if 0 < n then [(a, n)] else []
termination_by n

section
variable {c : ℕ}

theorem chunks_of_le {n : ℕ} (hc : 0 < c) (h : c ≤ n) (a : ℕ) :
    chunks c a n = (a, c) :: chunks c (a + c) (n - c) := by
  rw [chunks, dif_pos ⟨hc, h⟩]

theorem chunks_of_lt {n : ℕ} (h : n < c) (a : ℕ) :
    chunks c a n = if 0 < n then [(a, n)] else [] := by
  rw [chunks, dif_neg (by omega)]

theorem tiles_chunks (hc : 0 < c) (a n : ℕ) : Tiles c a (a + n) (chunks c a n) := by
  fun_induction chunks c a n with
  | case1 a n h ih =>
    have hend : a + c + (n - c) = a + n := by omega
    rw [hend] at ih
    exact .cons hc le_rfl ih
  | case2 a n h hpos =>
    exact .cons hpos (by omega) (.nil _)
  | case3 a n _ hzero =>
    obtain rfl : n = 0 := by omega
    exact .nil a

/-- There are as many pieces as are needed. -/
theorem length_chunks (hc : 0 < c) (a n : ℕ) : (chunks c a n).length = (n + (c - 1)) / c := by
  fun_induction chunks c a n with
  | case1 a n h ih =>
    have hsum : n + (c - 1) = n - c + (c - 1) + c := by omega
    rw [List.length_cons, ih, hsum, Nat.add_div_right _ hc]
  | case2 a n h hpos =>
    have hlt : n + (c - 1) = n - 1 + c := by omega
    rw [hlt, Nat.add_div_right _ hc, Nat.div_eq_of_lt (by omega)]
    rfl
  | case3 a n _ hzero =>
    rw [Nat.div_eq_of_lt (by omega)]
    rfl

end

end Chunks
