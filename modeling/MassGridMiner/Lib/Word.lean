import Mathlib.Data.Nat.Basic
import Mathlib.Tactic.Linarith
import Mathlib.Tactic.Ring

/-!
# Little-endian words over byte vectors

A byte vector is read as 32-bit or 64-bit little-endian words, and its first words
as one natural number.  Comparing two numbers of equal width word by word from the
most significant end is the recurring use, so the arithmetic of one such step is
stated once.

## Main definitions

* `Bytes n` — `n` bytes.
* `Bytes.byte v i` — the byte at `i`, zero outside the vector.
* `Bytes.word32 v i`, `Bytes.word64 v i` — the `i`-th little-endian word.
* `Bytes.lowWords v k` — the number the first `k` 32-bit words spell.
* `Bytes.overwrite v off bs` — `memcpy` into the buffer at an offset.
* `le32`, `be32` — the bytes of a 32-bit word, in either order.
-/

/-- A buffer of `n` bytes. -/
abbrev Bytes (n : ℕ) := Vector UInt8 n

/-- The bytes of a word, least significant first. -/
def le32 (x : UInt32) : List UInt8 :=
  [x.toUInt8, (x >>> 8).toUInt8, (x >>> 16).toUInt8, (x >>> 24).toUInt8]

/-- The bytes of a word, most significant first. -/
def be32 (x : UInt32) : List UInt8 :=
  [(x >>> 24).toUInt8, (x >>> 16).toUInt8, (x >>> 8).toUInt8, x.toUInt8]

namespace Bytes
variable {n : ℕ}

/-- The byte at index `i` as a number, and zero outside the buffer. -/
def byte (v : Bytes n) (i : ℕ) : ℕ := (v[i]?.getD 0).toNat

/-- The `i`-th 32-bit word, least significant byte first. -/
def word32 (v : Bytes n) (i : ℕ) : ℕ :=
  v.byte (4 * i) + 2 ^ 8 * v.byte (4 * i + 1) + 2 ^ 16 * v.byte (4 * i + 2) +
    2 ^ 24 * v.byte (4 * i + 3)

/-- The `i`-th 64-bit word, least significant 32-bit word first. -/
def word64 (v : Bytes n) (i : ℕ) : ℕ := v.word32 (2 * i) + 2 ^ 32 * v.word32 (2 * i + 1)

/-- The number that the first `k` 32-bit words spell, least significant word first. -/
def lowWords (v : Bytes n) : ℕ → ℕ
  | 0 => 0
  | k + 1 => lowWords v k + 2 ^ (32 * k) * v.word32 k

/-- The buffer with `bs` copied into it from index `off` on. -/
def overwrite (v : Bytes n) (off : ℕ) (bs : List UInt8) : Bytes n :=
  Vector.ofFn fun i => if off ≤ i.val then bs[i.val - off]?.getD v[i] else v[i]

theorem byte_lt (v : Bytes n) (i : ℕ) : v.byte i < 2 ^ 8 := UInt8.toNat_lt _

theorem word32_lt (v : Bytes n) (i : ℕ) : v.word32 i < 2 ^ 32 := by
  have h0 := v.byte_lt (4 * i)
  have h1 := v.byte_lt (4 * i + 1)
  have h2 := v.byte_lt (4 * i + 2)
  have h3 := v.byte_lt (4 * i + 3)
  simp only [word32]
  omega

@[simp] theorem lowWords_zero (v : Bytes n) : v.lowWords 0 = 0 := rfl

theorem lowWords_succ (v : Bytes n) (k : ℕ) :
    v.lowWords (k + 1) = v.lowWords k + 2 ^ (32 * k) * v.word32 k := rfl

theorem lowWords_lt (v : Bytes n) (k : ℕ) : v.lowWords k < 2 ^ (32 * k) := by
  induction k with
  | zero => simp
  | succ k ih =>
      have hw : v.word32 k + 1 ≤ 2 ^ 32 := v.word32_lt k
      calc v.lowWords (k + 1)
          < 2 ^ (32 * k) * (v.word32 k + 1) := by rw [lowWords_succ]; linarith
        _ ≤ 2 ^ (32 * k) * 2 ^ 32 := Nat.mul_le_mul_left _ hw
        _ = 2 ^ (32 * (k + 1)) := by rw [← pow_add]; ring_nf

/-- One step of a comparison from the most significant end: the high digits decide
unless they are equal. -/
theorem add_mul_le_add_mul_iff {a b B x y : ℕ} (ha : a < B) (hb : b < B) :
    a + B * x ≤ b + B * y ↔ x < y ∨ x = y ∧ a ≤ b := by
  rcases lt_trichotomy x y with h | h | h
  · have : B * (x + 1) ≤ B * y := Nat.mul_le_mul_left B h
    simp only [h, true_or, iff_true]
    linarith
  · subst h
    simp
  · have : B * (y + 1) ≤ B * x := Nat.mul_le_mul_left B h
    have hne : ¬ (x < y ∨ x = y ∧ a ≤ b) := by omega
    simp only [hne, iff_false, not_le]
    linarith

/-- The top 64-bit word of an eight-word number is its quotient by `2 ^ 192`. -/
theorem lowWords_eight (v : Bytes n) :
    v.lowWords 8 = v.lowWords 6 + 2 ^ 192 * v.word64 3 := by
  rw [lowWords_succ, lowWords_succ, word64]
  ring

end Bytes
