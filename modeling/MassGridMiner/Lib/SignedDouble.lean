import MassGridMiner.Lib.Double

/-!
# Doubles of either sign

The nearest double to any number whose exponent is not too large: 53 bits are kept, and of the
smallest numbers those above the last bit that a double can have.  A number that is a double
stays as it is, none is rounded over a double, and what rounding changes is small.

## Main definitions

* `roundDouble` — rounding to the nearest double.
* `IsDouble` — the number is one.
* `truncate` — the integer part, as conversions have it.
-/

/-- The exponent of the last bit that is kept of a number. -/
def doubleBit (x : ℚ) : ℤ := max (lastBit |x|) (-1074)

/-- The double nearest to a number of either sign. -/
def roundDouble (x : ℚ) : ℚ := roundEven (x / 2 ^ doubleBit x) * 2 ^ doubleBit x

/-- A number of 53 bits. -/
def IsDouble (x : ℚ) : Prop := ∃ m e : ℤ, |m| ≤ 2 ^ 53 ∧ -1074 ≤ e ∧ x = m * 2 ^ e

/-- The number without its fraction. -/
def truncate (x : ℚ) : ℤ := if 0 ≤ x then ⌊x⌋ else ⌈x⌉

/-! ## Integers -/

theorem roundEven_intCast (n : ℤ) : roundEven n = n := by
  simp [roundEven]

theorem roundEven_le_of_le {n : ℤ} {x : ℚ} (H : x ≤ n) : roundEven x ≤ n := by
  have hfloor : ⌊x⌋ ≤ n := by
    have hle := (Int.floor_mono H).trans_eq (Int.floor_intCast n)
    exact hle
  rcases hfloor.lt_or_eq with hlt | heq
  · rw [roundEven]
    split <;> omega
  · have hx : x = n := le_antisymm H (heq ▸ Int.floor_le x)
    rw [hx, roundEven_intCast]

theorem abs_roundEven_sub_le (x : ℚ) : |roundEven x - x| ≤ 1 := by
  have hfloor := Int.floor_le x
  have hceil := Int.lt_floor_add_one x
  rw [roundEven, abs_le]
  split <;> push_cast <;> constructor <;> linarith

/-! ## Rounding -/

theorem two_zpow_pos (e : ℤ) : (0 : ℚ) < 2 ^ e := zpow_pos (by norm_num) e

theorem abs_lt_doubleBit (x : ℚ) : |x| < 2 ^ (doubleBit x + 53) := by
  have hlt : |x| < 2 ^ (Int.log 2 |x| + 1) := by
    exact_mod_cast Int.lt_zpow_succ_log_self (b := 2) (by norm_num) |x|
  refine hlt.trans_le (zpow_le_zpow_right₀ (by norm_num) ?_)
  rw [doubleBit, lastBit]
  omega

theorem roundDouble_nonneg {x : ℚ} (H : 0 ≤ x) : 0 ≤ roundDouble x := by
  have hpos := two_zpow_pos (doubleBit x)
  have hround : 0 ≤ roundEven (x / 2 ^ doubleBit x) :=
    le_roundEven (by exact_mod_cast div_nonneg H hpos.le)
  exact mul_nonneg (by exact_mod_cast hround) hpos.le

theorem roundDouble_nonpos {x : ℚ} (H : x ≤ 0) : roundDouble x ≤ 0 := by
  have hpos := two_zpow_pos (doubleBit x)
  have hround : roundEven (x / 2 ^ doubleBit x) ≤ 0 :=
    roundEven_le_of_le (by exact_mod_cast div_nonpos_of_nonpos_of_nonneg H hpos.le)
  exact mul_nonpos_of_nonpos_of_nonneg (by exact_mod_cast hround) hpos.le

/-- What is rounded is a double. -/
theorem isDouble_roundDouble (x : ℚ) : IsDouble (roundDouble x) := by
  have hpos := two_zpow_pos (doubleBit x)
  have habs : |x / 2 ^ doubleBit x| ≤ 2 ^ 53 := by
    rw [abs_div, abs_of_pos hpos, div_le_iff₀ hpos, ← zpow_natCast, ← zpow_add₀ (by norm_num)]
    have hle := (abs_lt_doubleBit x).le
    rwa [add_comm] at hle
  obtain ⟨hlow, hhigh⟩ := abs_le.mp habs
  refine ⟨roundEven (x / 2 ^ doubleBit x), doubleBit x, ?_, le_max_right _ _, rfl⟩
  rw [abs_le]
  constructor
  · exact le_roundEven (by exact_mod_cast hlow)
  · exact roundEven_le_of_le (by exact_mod_cast hhigh)

/-- A double that is no smaller than a number is a multiple of the last bit of that number. -/
theorem IsDouble.multiple {x z : ℚ} (hz : IsDouble z) (hx : x ≠ 0) (H : |x| ≤ |z|) :
    ∃ n : ℤ, z = n * 2 ^ doubleBit x := by
  obtain ⟨m, e, hm, he, rfl⟩ := hz
  have hpow := two_zpow_pos e
  rcases le_or_gt (doubleBit x) e with hle | hlt
  · obtain ⟨k, hk⟩ := Int.eq_ofNat_of_zero_le (sub_nonneg.mpr hle)
    refine ⟨m * 2 ^ k, ?_⟩
    have hsplit : e = k + doubleBit x := by omega
    rw [hsplit, zpow_add₀ (by norm_num)]
    push_cast
    rw [zpow_natCast]
    ring
  · -- the double is so large that it is the power of two itself
    have hbit : doubleBit x = Int.log 2 |x| - 52 := by
      rw [doubleBit, lastBit] at hlt ⊢
      omega
    have hlow : (2 : ℚ) ^ Int.log 2 |x| ≤ |x| := by
      exact_mod_cast Int.zpow_log_le_self (b := 2) (by norm_num) (abs_pos.mpr hx)
    have habs : |(m : ℚ) * 2 ^ e| = |m| * 2 ^ e := by
      rw [abs_mul, abs_of_pos hpow, Int.cast_abs]
    have hupper : (|m| : ℚ) * 2 ^ e ≤ 2 ^ (53 + e) := by
      rw [zpow_add₀ (by norm_num)]
      exact mul_le_mul_of_nonneg_right (by exact_mod_cast hm) hpow.le
    have hlog : Int.log 2 |x| ≤ 53 + e := by
      have hall := (hlow.trans H).trans (habs.trans_le (by exact_mod_cast hupper))
      exact (zpow_le_zpow_iff_right₀ (by norm_num)).mp hall
    have heq : doubleBit x = e + 1 := by omega
    have hmin : (2 : ℚ) ^ 53 * 2 ^ e ≤ |m| * 2 ^ e := by
      have hall := (hlow.trans H).trans habs.le
      rwa [show Int.log 2 |x| = 53 + e by omega, zpow_add₀ (by norm_num)] at hall
    have hexact : |m| = 2 ^ 53 := by
      refine le_antisymm hm ?_
      exact_mod_cast le_of_mul_le_mul_right hmin hpow
    rw [heq, zpow_add_one₀ (by norm_num)]
    rcases (abs_eq (by norm_num)).mp hexact with hm | hm
    · refine ⟨2 ^ 52, ?_⟩
      rw [hm]
      push_cast
      ring
    · refine ⟨-2 ^ 52, ?_⟩
      rw [hm]
      push_cast
      ring

theorem isDouble_natCast {n : ℕ} (H : n ≤ 2 ^ 53) : IsDouble n :=
  ⟨n, 0, by rw [Nat.abs_cast]; exact_mod_cast H, by norm_num, by simp⟩

/-- A number is not rounded over a double above it. -/
theorem roundDouble_le {x z : ℚ} (hz : IsDouble z) (hpos : 0 ≤ z) (H : x ≤ z) :
    roundDouble x ≤ z := by
  rcases le_or_gt x 0 with hx | hx
  · exact (roundDouble_nonpos hx).trans hpos
  · have habs : |x| ≤ |z| := by rwa [abs_of_pos hx, abs_of_nonneg hpos]
    obtain ⟨n, hn⟩ := hz.multiple hx.ne' habs
    have hpow := two_zpow_pos (doubleBit x)
    have hle : x / 2 ^ doubleBit x ≤ n := by
      rw [div_le_iff₀ hpow, ← hn]
      exact H
    have hround := roundEven_le_of_le hle
    rw [hn, roundDouble]
    exact mul_le_mul_of_nonneg_right (by exact_mod_cast hround) hpow.le

/-- Of a number below a power of two, rounding changes what is after its 53 bits. -/
theorem abs_roundDouble_sub_le {x : ℚ} (k : ℕ) (H : |x| < 2 ^ k) :
    |roundDouble x - x| ≤ 2 ^ (k - 53 : ℤ) := by
  rcases eq_or_ne x 0 with rfl | hx
  · simp [roundDouble, roundEven, (two_zpow_pos _).le]
  have hpow := two_zpow_pos (doubleBit x)
  have hbit : doubleBit x ≤ k - 53 := by
    have hlog : Int.log 2 |x| < k := by
      rw [← Int.lt_zpow_iff_log_lt (by norm_num) (abs_pos.mpr hx)]
      exact_mod_cast H
    rw [doubleBit, lastBit]
    omega
  have hsub : roundDouble x - x =
      (roundEven (x / 2 ^ doubleBit x) - x / 2 ^ doubleBit x) * 2 ^ doubleBit x := by
    rw [sub_mul, div_mul_cancel₀ x hpow.ne', roundDouble]
  rw [hsub, abs_mul, abs_of_pos hpow]
  calc |(roundEven (x / 2 ^ doubleBit x) : ℚ) - x / 2 ^ doubleBit x| * 2 ^ doubleBit x
      ≤ 1 * 2 ^ doubleBit x := mul_le_mul_of_nonneg_right (abs_roundEven_sub_le _) hpow.le
    _ = 2 ^ doubleBit x := one_mul _
    _ ≤ 2 ^ (k - 53 : ℤ) := zpow_le_zpow_right₀ (by norm_num) hbit

/-! ## The integer part -/

theorem truncate_nonneg {x : ℚ} (H : 0 ≤ x) : 0 ≤ truncate x := by
  rw [truncate, if_pos H]
  exact Int.floor_nonneg.mpr H

theorem truncate_lt {x : ℚ} {n : ℤ} (hn : 0 < n) (H : x < n) : truncate x < n := by
  rw [truncate]
  split
  · exact Int.floor_lt.mpr H
  next hx => exact (Int.ceil_le.mpr (by exact_mod_cast (not_le.mp hx).le)).trans_lt hn

theorem neg_le_truncate {x : ℚ} {n : ℕ} (H : -(n + 1 : ℚ) < x) : -(n : ℤ) ≤ truncate x := by
  rw [truncate]
  split
  next hx => exact (neg_nonpos.mpr n.cast_nonneg).trans (Int.floor_nonneg.mpr hx)
  next =>
    have hlt : (-(n + 1) : ℤ) < ⌈x⌉ := Int.lt_ceil.mpr (by push_cast; linarith)
    omega

/-- What is cut off a negative number was below the integer part. -/
theorem le_truncate_of_neg {x : ℚ} (H : truncate x < 0) : x ≤ truncate x := by
  rw [truncate] at H ⊢
  split at H
  next hx => exact absurd (Int.floor_nonneg.mpr hx) (not_le.mpr H)
  next hx =>
    rw [if_neg hx]
    exact Int.le_ceil x
