import Mathlib.Data.Nat.Bitwise
import Mathlib.Data.Nat.Notation

/-!
# Fields of a word

A few bits of a word that stand next to each other are a number.  Two words agree in a field,
under a mask or in what is left by a shift exactly when they agree in the bits of it.

## Main definitions

* `BitVec.field x s k` — the `k` bits of a word from bit `s` on.
* `BitVec.and_eq_and_iff`, `BitVec.field_eq_field_iff`, `BitVec.ushiftRight_eq_iff` — agreement,
  bit by bit.
* `UInt32.and_not_eq_zero_iff` — words that lie under a mask.
-/

namespace BitVec
variable {w : ℕ}

/-- The `k` bits from bit `s` on, as a number. -/
def field (x : BitVec w) (s k : ℕ) : ℕ := (x.toNat >>> s) % 2 ^ k

theorem testBit_field (x : BitVec w) (s k j : ℕ) :
    (x.field s k).testBit j = (decide (j < k) && x.getLsbD (s + j)) := by
  rw [field, Nat.testBit_mod_two_pow, Nat.testBit_shiftRight, BitVec.getLsbD]

theorem field_eq_field_iff {x y : BitVec w} {s k : ℕ} :
    x.field s k = y.field s k ↔ ∀ j < k, x.getLsbD (s + j) = y.getLsbD (s + j) := by
  constructor
  · intro H j hj
    have := congrArg (Nat.testBit · j) H
    simpa [testBit_field, hj] using this
  · intro H
    refine Nat.eq_of_testBit_eq fun j => ?_
    rw [testBit_field, testBit_field]
    by_cases hj : j < k
    · rw [H j hj]
    · simp [hj]

/-- Two words agree under a mask when they agree in its bits. -/
theorem and_eq_and_iff {x y m : BitVec w} :
    x &&& m = y &&& m ↔ ∀ b < w, m.getLsbD b = true → x.getLsbD b = y.getLsbD b := by
  constructor
  · intro H b _ hm
    have := congrArg (BitVec.getLsbD · b) H
    simpa [hm] using this
  · intro H
    refine BitVec.eq_of_getLsbD_eq fun b hb => ?_
    rw [BitVec.getLsbD_and, BitVec.getLsbD_and]
    cases hm : m.getLsbD b
    · simp
    · rw [H b hb hm]

/-- Two words agree behind a shift when they agree in the bits from there on. -/
theorem ushiftRight_eq_iff {x y : BitVec w} {s : ℕ} :
    x >>> s = y >>> s ↔ ∀ b < w, s ≤ b → x.getLsbD b = y.getLsbD b := by
  constructor
  · intro H b _ hs
    have := congrArg (BitVec.getLsbD · (b - s)) H
    simpa [Nat.add_sub_cancel' hs] using this
  · intro H
    refine BitVec.eq_of_getLsbD_eq fun b hb => ?_
    rw [BitVec.getLsbD_ushiftRight, BitVec.getLsbD_ushiftRight]
    rcases Nat.lt_or_ge (s + b) w with hlt | hge
    · exact H (s + b) hlt (Nat.le_add_right s b)
    · rw [BitVec.getLsbD_of_ge x _ hge, BitVec.getLsbD_of_ge y _ hge]

end BitVec

namespace UInt32

/-- Nothing is left outside of a mask when the mask changes nothing. -/
theorem and_not_eq_zero_iff (x m : UInt32) : x &&& ~~~m = 0 ↔ x &&& m = x := by
  rw [← UInt32.toBitVec_inj, ← UInt32.toBitVec_inj, UInt32.toBitVec_and, UInt32.toBitVec_and,
    UInt32.toBitVec_not, show (0 : UInt32).toBitVec = 0#32 from rfl]
  simp only [BitVec.eq_of_getLsbD_eq_iff, BitVec.getLsbD_and, BitVec.getLsbD_not,
    BitVec.getLsbD_zero]
  refine forall₂_congr fun i hi => ?_
  rw [decide_eq_true hi]
  cases x.toBitVec.getLsbD i <;> cases m.toBitVec.getLsbD i <;> decide

end UInt32
