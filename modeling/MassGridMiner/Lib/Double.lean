import Mathlib.Data.Int.Log
import Mathlib.Data.Nat.Digits.Lemmas
import Mathlib.Data.Rat.Floor
import Mathlib.Tactic.Linarith
import Mathlib.Tactic.Positivity
import Mathlib.Tactic.Ring

/-!
# Doubles as rational numbers

The value of an operation on doubles is the exact value, rounded to 53 bits.  The results are
about numbers that are neither negative nor outside the range of normal doubles; there the
rounding keeps the power of two below a number, and makes an integer of a large one.

## Main definitions

* `roundEven`, `toDouble` — rounding to the nearest integer, and to the nearest double.
* `printFixed` — a number in decimal, with so many places.
-/

/-- The nearest integer; the even one of two that are as near. -/
def roundEven (x : ℚ) : ℤ :=
  let r := 2 * (x - ⌊x⌋)
  if r < 1 ∨ r = 1 ∧ ⌊x⌋ % 2 = 0 then ⌊x⌋ else ⌊x⌋ + 1

/-- The exponent of the last of 53 bits of a number. -/
def lastBit (x : ℚ) : ℤ := Int.log 2 x - 52

/-- The double nearest to a number. -/
def toDouble (x : ℚ) : ℚ := roundEven (x / 2 ^ lastBit x) * 2 ^ lastBit x

theorem le_roundEven {n : ℤ} {x : ℚ} (H : (n : ℚ) ≤ x) : n ≤ roundEven x := by
  have hfloor : n ≤ ⌊x⌋ := Int.le_floor.mpr H
  rw [roundEven]
  split <;> omega

theorem roundEven_le (x : ℚ) : (roundEven x : ℚ) ≤ x + 1 := by
  have hfloor := Int.floor_le x
  rw [roundEven]
  split <;> push_cast <;> linarith

/-- Rounding does not go below the power of two that a number is above. -/
theorem zpow_log_le_toDouble {x : ℚ} (hx : 0 < x) : (2 : ℚ) ^ Int.log 2 x ≤ toDouble x := by
  have hpos : (0 : ℚ) < 2 ^ lastBit x := zpow_pos (by norm_num) _
  have hsplit : (2 : ℚ) ^ Int.log 2 x = 2 ^ 52 * 2 ^ lastBit x := by
    rw [lastBit, ← zpow_natCast, ← zpow_add₀ (by norm_num)]
    congr 1
    omega
  have hle : ((2 ^ 52 : ℤ) : ℚ) ≤ x / 2 ^ lastBit x := by
    rw [le_div_iff₀ hpos, Int.cast_pow, Int.cast_ofNat, ← hsplit]
    exact_mod_cast Int.zpow_log_le_self (b := 2) (by norm_num) hx
  have hround : ((2 ^ 52 : ℤ) : ℚ) ≤ roundEven (x / 2 ^ lastBit x) := by
    exact_mod_cast le_roundEven hle
  rw [hsplit, toDouble]
  refine mul_le_mul_of_nonneg_right ?_ hpos.le
  exact_mod_cast hround

/-- Rounding takes away less than half. -/
theorem lt_two_mul_toDouble {x : ℚ} (hx : 0 < x) : x < 2 * toDouble x := by
  have hlt : x < 2 ^ (Int.log 2 x + 1) := by
    exact_mod_cast Int.lt_zpow_succ_log_self (b := 2) (by norm_num) x
  have hle := zpow_log_le_toDouble hx
  rw [zpow_add_one₀ (by norm_num)] at hlt
  linarith

/-- A double that is large is an integer. -/
theorem exists_int_toDouble {x : ℚ} (H : 2 ^ 52 ≤ x) : ∃ n : ℤ, toDouble x = n := by
  have hlog : 52 ≤ Int.log 2 x := by
    have hx : 0 < x := lt_of_lt_of_le (by norm_num) H
    rw [← Int.zpow_le_iff_le_log (by norm_num) hx]
    exact_mod_cast H
  obtain ⟨k, hk⟩ := Int.eq_ofNat_of_zero_le (show 0 ≤ lastBit x by rw [lastBit]; omega)
  refine ⟨roundEven (x / 2 ^ lastBit x) * 2 ^ k, ?_⟩
  rw [toDouble, hk]
  push_cast
  rfl

/-! ## Decimals -/

/-- The digits of a number, with zeros in front up to a length. -/
def paddedDigits (len n : ℕ) : List UInt8 :=
  let ds := (Nat.digits 10 n).reverse.map fun d => 0x30 + UInt8.ofNat d
  List.replicate (len - ds.length) 0x30 ++ ds

/-- `%.*f` of a number that is not negative. -/
def printFixed (prec : ℕ) (x : ℚ) : List UInt8 :=
  let ds := paddedDigits (prec + 1) (roundEven (x * 10 ^ prec)).toNat
  if prec = 0 then ds
  else ds.take (ds.length - prec) ++ 0x2e :: ds.drop (ds.length - prec)

theorem length_paddedDigits_le (len : ℕ) {n k : ℕ} (H : n < 10 ^ k) :
    (paddedDigits len n).length ≤ max len k := by
  have := (Nat.digits_length_le_iff (by norm_num : 1 < 10) n).mpr H
  simp only [paddedDigits, List.length_append, List.length_replicate, List.length_map,
    List.length_reverse]
  omega

theorem digit_of_mem_paddedDigits {len n : ℕ} {c : UInt8} (H : c ∈ paddedDigits len n) :
    0x30 ≤ c ∧ c ≤ 0x39 := by
  rcases List.mem_append.mp H with hpad | hdigit
  · rw [List.eq_of_mem_replicate hpad]
    decide
  · obtain ⟨d, hd, rfl⟩ := List.mem_map.mp hdigit
    have hlt : d < 10 := Nat.digits_lt_base (by norm_num) (List.mem_reverse.mp hd)
    interval_cases d <;> decide

theorem zero_notMem_paddedDigits (len n : ℕ) : 0 ∉ paddedDigits len n := fun h =>
  absurd (digit_of_mem_paddedDigits h).1 (by decide)

/-- A number below a power of ten has as many digits before the point. -/
theorem length_printFixed_le (prec : ℕ) {k : ℕ} {x : ℚ} (hx : x + 1 < 10 ^ k) :
    (printFixed prec x).length ≤ k + prec + 2 := by
  have hround : (roundEven (x * 10 ^ prec)).toNat < 10 ^ (k + prec) := by
    have hpos : (1 : ℚ) ≤ 10 ^ prec := one_le_pow₀ (by norm_num)
    have hlt : (roundEven (x * 10 ^ prec) : ℚ) < 10 ^ (k + prec) := calc
      (roundEven (x * 10 ^ prec) : ℚ) ≤ x * 10 ^ prec + 1 := roundEven_le _
      _ ≤ (x + 1) * 10 ^ prec := by linarith
      _ < 10 ^ k * 10 ^ prec := mul_lt_mul_of_pos_right hx (by linarith)
      _ = 10 ^ (k + prec) := (pow_add 10 k prec).symm
    have hint : roundEven (x * 10 ^ prec) < 10 ^ (k + prec) := by exact_mod_cast hlt
    have hcast : ((10 ^ (k + prec) : ℕ) : ℤ) = 10 ^ (k + prec) := by push_cast; rfl
    have htop : (0 : ℤ) < 10 ^ (k + prec) := by positivity
    omega
  have hlen := length_paddedDigits_le (prec + 1) hround
  simp only [printFixed]
  split
  · omega
  · simp only [List.length_append, List.length_take, List.length_cons, List.length_drop]
    omega
