import Mathlib.Order.Basic
import Mathlib.Order.Nat
import Mathlib.Algebra.Order.Ring.Int

/-!
# Integers of fixed width

Signed and unsigned numbers of 32 bits are integers modulo `2 ^ 32`, in two ranges.  These are
the conversions, as integers.

## Main definitions

* `intMax` — the greatest `int`.
* `UInt32.natCast_toNat_ofInt`, `Int32.natCast_toNat_toUInt32` — to an unsigned number.
* `UInt32.toInt_toInt32` — to a signed number.
-/

/-- `INT_MAX`. -/
def intMax : ℤ := 2147483647

theorem UInt32.natCast_toNat_ofInt (x : ℤ) : ((UInt32.ofInt x).toNat : ℤ) = x % 2 ^ 32 := by
  have hnonneg : 0 ≤ x % 2 ^ 32 := Int.emod_nonneg x (by decide)
  have hlt : x % 2 ^ 32 < 2 ^ 32 := Int.emod_lt_of_pos x (by decide)
  rw [UInt32.ofInt, UInt32.toNat_ofNat', Nat.mod_eq_of_lt (by omega), Int.toNat_of_nonneg hnonneg]

theorem bmod_emod_two_pow (x : ℤ) : x.bmod (2 ^ 32) % 2 ^ 32 = x % 2 ^ 32 := by
  have hsame : x.bmod (2 ^ 32) % ((2 ^ 32 : ℕ) : ℤ) = x % ((2 ^ 32 : ℕ) : ℤ) := Int.bmod_emod
  exact hsame

theorem Int32.natCast_toNat_toUInt32 (x : Int32) : (x.toUInt32.toNat : ℤ) = x.toInt % 2 ^ 32 := by
  have hlt := x.toUInt32.toNat_lt
  rw [← Int32.toNat_toBitVec] at hlt ⊢
  rw [Int32.toInt, BitVec.toInt_eq_toNat_bmod, bmod_emod_two_pow]
  omega

theorem Int32.toUInt32_eq_ofInt (x : Int32) : x.toUInt32 = UInt32.ofInt x.toInt := by
  apply UInt32.toNat_inj.mp
  have hleft := x.natCast_toNat_toUInt32
  have hright := UInt32.natCast_toNat_ofInt x.toInt
  omega

theorem Int32.toUInt32_ofInt (x : ℤ) : (Int32.ofInt x).toUInt32 = UInt32.ofInt x := by
  apply UInt32.toNat_inj.mp
  have hleft := (Int32.ofInt x).natCast_toNat_toUInt32
  have hright := UInt32.natCast_toNat_ofInt x
  rw [Int32.toInt_ofInt, show Int32.size = 2 ^ 32 from rfl, bmod_emod_two_pow] at hleft
  omega

theorem UInt32.ofInt_toNat (x : UInt32) : UInt32.ofInt x.toNat = x := by
  apply UInt32.toNat_inj.mp
  have hlt := x.toNat_lt
  have hcast := UInt32.natCast_toNat_ofInt x.toNat
  omega

theorem UInt32.toInt_toInt32 (x : UInt32) : x.toInt32.toInt = (x.toNat : ℤ).bmod (2 ^ 32) :=
  BitVec.toInt_eq_toNat_bmod _

/-- A number of 31 bits is the same with a sign. -/
theorem UInt32.toInt_toInt32_of_lt {x : UInt32} (H : x.toNat < 2 ^ 31) :
    x.toInt32.toInt = x.toNat := by
  have hsize : ((2 ^ 32 : ℕ) : ℤ) = 4294967296 := rfl
  rw [UInt32.toInt_toInt32]
  apply Int.bmod_eq_of_le_mul_two
  · rw [hsize]
    omega
  · rw [hsize]
    omega
