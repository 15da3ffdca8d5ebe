import MassGridMiner.JumpHash
import MassGridMiner.Lib.Buffer
import Mathlib.Algebra.Order.Floor.Semiring
import Mathlib.Data.Nat.Log
import Mathlib.Data.Rat.Floor
import Mathlib.Tactic.IntervalCases

/-!
# The target of a difficulty

`set_target_to_pdiff` writes the 256-bit target that a share of a difficulty has to meet.
`pdiff_target_leadzero` divides the difficulty by 2^32 until it is at most one, six times
at the most, and then writes a quotient into the two leading words.  The divisions are
exact here, the difficulty being a rational number.

How often the loop divided plays no part in where the quotient is written, so the target
starts anew above every power of 2^32.

## Main definitions

* `pdiffTargetLeadzero`, `swab256`, `setTargetToPdiff` — the functions of the source.
* `toNat_setTargetToPdiff` — the number that is written.
* `scaled` — the difficulty without the powers of 2^32.
* `FollowsDifficulty` — a higher difficulty has the lower target.
* `KeepsOrder` — the condition for that.
-/

namespace MassGridMiner

/-- The loop of `pdiff_target_leadzero`: the final `k`, and the difficulty divided. -/
def leadzeroLoop : ℕ → ℚ → ℕ × ℚ
  | 0, diff => (0, diff)
  | k + 1, diff => if 1 < diff then leadzeroLoop k (diff / 2 ^ 32) else (k + 1, diff)

/-- `pdiff_target_leadzero`, big endian.  The quotient is kept in a signed variable. -/
def pdiffTargetLeadzero (diff : ℚ) : Hash :=
  let (k, diff) := leadzeroLoop 6 diff
  let m : Int64 := (UInt64.ofNat ⌊4294901760 / diff⌋₊).toInt64
  if m = 0 ∧ k = 6 then Hash.ones
  else (Hash.ones.overwrite 4 (le32 m.toUInt64.toUInt32)).overwrite 0
    (le32 (m >>> 32).toUInt64.toUInt32)

/-- `swab256`: the bytes in the reverse order. -/
def swab256 (src : Hash) : Hash := Vector.ofFn fun i => src[31 - i.val]

/-- `set_target_to_pdiff`. -/
def setTargetToPdiff (pdiff : ℚ) : Hash :=
  Hash.zero.overwrite 0 (swap32yes (swab256 (pdiffTargetLeadzero pdiff)) (32 / 4))

/-! ## What is written -/

/-- The two shuffles together put the words into the reverse order. -/
theorem word32_shuffle (src : Hash) {k : ℕ} (H : k < 8) :
    (Hash.zero.overwrite 0 (swap32yes (swab256 src) (32 / 4))).word32 k = src.word32 (7 - k) := by
  have hbyte : ∀ j < 4, (Hash.zero.overwrite 0 (swap32yes (swab256 src) (32 / 4))).byte
      (4 * k + j) = src.byte (4 * (7 - k) + j) := by
    intro j hj
    have hlen : (swap32yes (swab256 src) (32 / 4)).length = 32 := by simp [swap32yes]
    rw [Bytes.byte_overwrite _ (by omega), hlen, if_pos (by omega)]
    have hquot : (4 * k + j) / 4 = k := by omega
    have hrem : (4 * k + j) % 4 = j := by omega
    have hidx : 31 - (4 * k + (3 - j)) = 4 * (7 - k) + j := by omega
    simp only [swap32yes, Nat.sub_zero, List.getElem?_map, List.getElem?_range
      (show 4 * k + j < 4 * (32 / 4) by omega), Option.map_some, Option.getD_some, hquot, hrem,
      swab256, Vector.getElem?_ofFn, show 4 * k + (3 - j) < 32 by omega, dif_pos, hidx,
      Bytes.byte, Vector.getElem?_eq_getElem (show 4 * (7 - k) + j < 32 by omega)]
  have hfirst := hbyte 0 (by omega)
  rw [Nat.add_zero, Nat.add_zero] at hfirst
  rw [Bytes.word32, Bytes.word32, hfirst, hbyte 1 (by omega), hbyte 2 (by omega),
    hbyte 3 (by omega)]

/-- The four bytes of a word spell it. -/
theorem le32_spells (x : UInt32) :
    ((le32 x)[0]?.getD 0).toNat + 2 ^ 8 * ((le32 x)[1]?.getD 0).toNat +
      2 ^ 16 * ((le32 x)[2]?.getD 0).toNat + 2 ^ 24 * ((le32 x)[3]?.getD 0).toNat = x.toNat := by
  have hlt := x.toNat_lt
  have h8 : (x >>> 8).toNat = x.toNat / 2 ^ 8 := by
    rw [UInt32.toNat_shiftRight, Nat.shiftRight_eq_div_pow]
    rfl
  have h16 : (x >>> 16).toNat = x.toNat / 2 ^ 16 := by
    rw [UInt32.toNat_shiftRight, Nat.shiftRight_eq_div_pow]
    rfl
  have h24 : (x >>> 24).toNat = x.toNat / 2 ^ 24 := by
    rw [UInt32.toNat_shiftRight, Nat.shiftRight_eq_div_pow]
    rfl
  simp only [le32, List.getElem?_cons_zero, List.getElem?_cons_succ, Option.getD_some,
    UInt32.toNat_toUInt8, h8, h16, h24]
  omega

/-- A word written into a buffer, and the words beside it. -/
theorem word32_overwrite {n : ℕ} (v : Bytes n) {k : ℕ} (x : UInt32) (H : 4 * k + 4 ≤ n) (i : ℕ) :
    (v.overwrite (4 * k) (le32 x)).word32 i = if i = k then x.toNat else v.word32 i := by
  have hfits : 4 * k + (le32 x).length ≤ n := H
  have hbyte := Bytes.byte_overwrite v hfits
  rw [show (le32 x).length = 4 from rfl] at hbyte
  simp only [Bytes.word32, hbyte]
  split_ifs with h0 h1 h2 h3 heq <;> try omega
  · subst heq
    simp only [Nat.sub_self, Nat.add_sub_cancel_left]
    exact le32_spells x

theorem word32_ones {k : ℕ} (H : k < 8) : Hash.ones.word32 k = 2 ^ 32 - 1 := by
  interval_cases k <;> decide +kernel

/-- What `pdiff_target_leadzero` writes, by words. -/
theorem word32_leading (hi lo : UInt32) {k : ℕ} (H : k < 8) :
    ((Hash.ones.overwrite 4 (le32 lo)).overwrite 0 (le32 hi)).word32 k =
      if k = 0 then hi.toNat else if k = 1 then lo.toNat else 2 ^ 32 - 1 := by
  have hhi := word32_overwrite (Hash.ones.overwrite 4 (le32 lo)) (k := 0) hi (by omega) k
  have hlo := word32_overwrite Hash.ones (k := 1) lo (by omega) k
  rw [hhi, hlo, word32_ones H]

/-- The number that the shuffled words spell. -/
theorem toNat_shuffle (hi lo : UInt32) :
    Hash.toNat (Hash.zero.overwrite 0 (swap32yes
      (swab256 ((Hash.ones.overwrite 4 (le32 lo)).overwrite 0 (le32 hi))) (32 / 4))) =
      2 ^ 192 * (2 ^ 32 * hi.toNat + lo.toNat) + (2 ^ 192 - 1) := by
  simp only [Hash.toNat, Bytes.lowWords_succ, Bytes.lowWords_zero]
  rw [word32_shuffle _ (k := 0) (by omega), word32_shuffle _ (k := 1) (by omega),
    word32_shuffle _ (k := 2) (by omega), word32_shuffle _ (k := 3) (by omega),
    word32_shuffle _ (k := 4) (by omega), word32_shuffle _ (k := 5) (by omega),
    word32_shuffle _ (k := 6) (by omega), word32_shuffle _ (k := 7) (by omega)]
  simp only [word32_leading, Nat.reduceSub, Nat.reduceLT, Nat.reduceEqDiff, if_true, if_false]
  omega

/-- The signed shift keeps the bits that are stored. -/
theorem toUInt32_sshiftRight (x : UInt64) :
    (x.toInt64 >>> 32).toUInt64.toUInt32 = (x >>> 32).toUInt32 := by
  apply UInt32.toBitVec_inj.mp
  ext i hi
  have hlow : 32 + i < 64 := by omega
  have hin : ¬ 64 ≤ i := by omega
  simp [BitVec.getLsbD_sshiftRight, hlow, hin]

/-! ## The quotient -/

/-- How many powers of 2^32 are divided out of a difficulty: as many as bring it to one at
most, but not more than six. -/
def leadPowers (d : ℚ) : ℕ := min 6 (Nat.clog (2 ^ 32) ⌈d⌉₊)

/-- The difficulty without them. -/
def scaled (d : ℚ) : ℚ := d / (2 ^ 32) ^ leadPowers d

theorem clog_ceil_le_iff (d : ℚ) (e : ℕ) :
    Nat.clog (2 ^ 32) ⌈d⌉₊ ≤ e ↔ d ≤ (2 ^ 32) ^ e := by
  rw [Nat.clog_le_iff_le_pow (by norm_num), Nat.ceil_le]
  push_cast
  rfl

theorem clog_ceil_eq_zero {d : ℚ} (H : d ≤ 1) : Nat.clog (2 ^ 32) ⌈d⌉₊ = 0 :=
  Nat.le_zero.mp ((clog_ceil_le_iff d 0).mpr (by simpa using H))

theorem clog_ceil_div {d : ℚ} (H : 1 < d) :
    Nat.clog (2 ^ 32) ⌈d⌉₊ = Nat.clog (2 ^ 32) ⌈d / 2 ^ 32⌉₊ + 1 := by
  refine eq_of_forall_ge_iff fun e => ?_
  cases e with
  | zero =>
      rw [clog_ceil_le_iff, pow_zero]
      simp [H]
  | succ e =>
      rw [Nat.add_le_add_iff_right, clog_ceil_le_iff, clog_ceil_le_iff, pow_succ,
        div_le_iff₀ (by norm_num)]

/-- What the loop does. -/
theorem leadzeroLoop_eq (k : ℕ) (d : ℚ) :
    leadzeroLoop k d =
      (k - min k (Nat.clog (2 ^ 32) ⌈d⌉₊), d / (2 ^ 32) ^ min k (Nat.clog (2 ^ 32) ⌈d⌉₊)) := by
  induction k generalizing d with
  | zero => simp [leadzeroLoop]
  | succ k ih =>
      rw [leadzeroLoop]
      split
      next hgt =>
        rw [ih, clog_ceil_div hgt, Nat.add_min_add_right, Nat.add_sub_add_right, div_div,
          ← pow_succ']
      next hle =>
        rw [clog_ceil_eq_zero (not_lt.mp hle)]
        simp

/-- The divisions leave 2^-32 at least. -/
theorem le_scaled {d : ℚ} (H : 1 / 2 ^ 32 ≤ d) : 1 / 2 ^ 32 ≤ scaled d := by
  rw [scaled]
  cases hexp : leadPowers d with
  | zero =>
      rw [pow_zero, div_one]
      exact H
  | succ e =>
      have hclog : ¬ Nat.clog (2 ^ 32) ⌈d⌉₊ ≤ e := by
        rw [leadPowers] at hexp
        omega
      rw [clog_ceil_le_iff, not_le] at hclog
      calc (1 : ℚ) / 2 ^ 32
          = (2 ^ 32) ^ e / (2 ^ 32) ^ (e + 1) := by
            rw [pow_succ ((2 : ℚ) ^ 32) e, div_mul_eq_div_div, div_self (by positivity)]
        _ ≤ d / (2 ^ 32) ^ (e + 1) := (div_lt_div_of_pos_right hclog (by positivity)).le

theorem scaled_pos {d : ℚ} (H : 1 / 2 ^ 32 ≤ d) : 0 < scaled d :=
  lt_of_lt_of_le (by norm_num) (le_scaled H)

/-- The quotient has 64 bits. -/
theorem quotient_lt {d : ℚ} (H : 1 / 2 ^ 32 ≤ d) : ⌊4294901760 / scaled d⌋₊ < 2 ^ 64 := by
  have hpos := scaled_pos H
  rw [Nat.floor_lt (by positivity), div_lt_iff₀ hpos]
  have hle := le_scaled H
  push_cast
  linarith

/-- The quotient is not zero where the difficulty is not divided. -/
theorem quotient_ne_zero {d : ℚ} (H : 1 / 2 ^ 32 ≤ d) (hexp : leadPowers d = 0) :
    ⌊4294901760 / scaled d⌋₊ ≠ 0 := by
  have hle : d ≤ 1 := by
    have hclog : Nat.clog (2 ^ 32) ⌈d⌉₊ ≤ 0 := by
      rw [leadPowers] at hexp
      omega
    simpa using (clog_ceil_le_iff d 0).mp hclog
  have hpos : 0 < d := lt_of_lt_of_le (by norm_num) H
  have hone : 1 ≤ ⌊4294901760 / d⌋₊ := by
    refine Nat.le_floor ((le_div_iff₀ hpos).mpr ?_)
    push_cast
    linarith
  rw [scaled, hexp, pow_zero, div_one]
  omega

/-- **The number that `set_target_to_pdiff` writes**: the quotient in front of ones. -/
theorem toNat_setTargetToPdiff {d : ℚ} (H : 1 / 2 ^ 32 ≤ d) :
    (setTargetToPdiff d).toNat = 2 ^ 192 * ⌊4294901760 / scaled d⌋₊ + (2 ^ 192 - 1) := by
  have hlt := quotient_lt H
  set q := ⌊4294901760 / scaled d⌋₊ with hq
  have hnat : (UInt64.ofNat q).toNat = q := UInt64.toNat_ofNat_of_lt hlt
  have hloop : leadzeroLoop 6 d = (6 - leadPowers d, scaled d) := leadzeroLoop_eq 6 d
  have hbranch : ¬ ((UInt64.ofNat q).toInt64 = 0 ∧ 6 - leadPowers d = 6) := by
    rintro ⟨hzero, hk⟩
    have hz : UInt64.ofNat q = 0 := by
      rw [← UInt64.toBitVec_inj]
      exact (Int64.toBitVec_inj.mpr hzero)
    have hq0 : q = 0 := by rw [← hnat, hz]; rfl
    exact quotient_ne_zero H (by omega) hq0
  have hwritten : pdiffTargetLeadzero d =
      (Hash.ones.overwrite 4 (le32 (UInt64.ofNat q).toUInt32)).overwrite 0
        (le32 ((UInt64.ofNat q) >>> 32).toUInt32) := by
    simp only [pdiffTargetLeadzero, hloop, ← hq]
    rw [if_neg hbranch, toUInt32_sshiftRight, UInt64.toUInt64_toInt64]
  rw [setTargetToPdiff, hwritten, toNat_shuffle]
  have hhi : ((UInt64.ofNat q) >>> 32).toUInt32.toNat = q / 2 ^ 32 := by
    rw [UInt64.toNat_toUInt32, UInt64.toNat_shiftRight, hnat, Nat.shiftRight_eq_div_pow,
      show UInt64.toNat 32 % 64 = 32 from rfl]
    exact Nat.mod_eq_of_lt (by omega)
  have hlo : (UInt64.ofNat q).toUInt32.toNat = q % 2 ^ 32 := by
    rw [UInt64.toNat_toUInt32, hnat]
  rw [hhi, hlo, Nat.div_add_mod]

/-! ## Difficulties and targets -/

/-- A higher difficulty has the lower target, so that a hash that meets it meets the other,
and none above one has a higher target than one has. -/
structure FollowsDifficulty (d₁ d₂ : ℚ) : Prop where
  falls : (setTargetToPdiff d₂).toNat ≤ (setTargetToPdiff d₁).toNat
  accepted : ∀ hash, hashTargetCheck hash (setTargetToPdiff d₂) = true →
    hashTargetCheck hash (setTargetToPdiff d₁) = true
  le_one : 1 ≤ d₂ → (setTargetToPdiff d₂).toNat ≤ (setTargetToPdiff 1).toNat

/-- Without the powers of 2^32, the higher difficulty goes into 4294901760 no more often
than the lower one. -/
def KeepsOrder (d₁ d₂ : ℚ) : Prop :=
  ∀ n : ℕ, n * scaled d₂ ≤ 4294901760 → n * scaled d₁ ≤ 4294901760

/-- Comparing two quotients rounded down. -/
theorem floor_div_le_floor_div_iff {c x y : ℚ} (hc : 0 ≤ c) (hx : 0 < x) (hy : 0 < y) :
    ⌊c / y⌋₊ ≤ ⌊c / x⌋₊ ↔ ∀ n : ℕ, n * y ≤ c → n * x ≤ c := by
  constructor
  · intro hle n hn
    have hny : n ≤ ⌊c / y⌋₊ := Nat.le_floor ((le_div_iff₀ hy).mpr hn)
    have hnx : (n : ℚ) ≤ c / x := (Nat.le_floor_iff (div_nonneg hc hx.le)).mp (hny.trans hle)
    exact (le_div_iff₀ hx).mp hnx
  · intro hall
    refine Nat.le_floor ((le_div_iff₀ hx).mpr (hall _ ?_))
    exact (le_div_iff₀ hy).mp (Nat.floor_le (div_nonneg hc hy.le))

theorem keepsOrder_of_scaled_le {d₁ d₂ : ℚ} (H : scaled d₁ ≤ scaled d₂) : KeepsOrder d₁ d₂ :=
  fun n hn => (mul_le_mul_of_nonneg_left H n.cast_nonneg).trans hn

/-- Between two powers of 2^32 the order is kept. -/
theorem keepsOrder_of_leadPowers_eq {d₁ d₂ : ℚ} (hle : d₁ ≤ d₂)
    (hexp : leadPowers d₁ = leadPowers d₂) : KeepsOrder d₁ d₂ := by
  refine keepsOrder_of_scaled_le ?_
  rw [scaled, scaled, hexp]
  exact div_le_div_of_nonneg_right hle (by positivity)

theorem toNat_setTargetToPdiff_le_iff {d₁ d₂ : ℚ} (h₁ : 1 / 2 ^ 32 ≤ d₁) (h₂ : 1 / 2 ^ 32 ≤ d₂) :
    (setTargetToPdiff d₂).toNat ≤ (setTargetToPdiff d₁).toNat ↔ KeepsOrder d₁ d₂ := by
  rw [toNat_setTargetToPdiff h₁, toNat_setTargetToPdiff h₂, KeepsOrder,
    ← floor_div_le_floor_div_iff (by norm_num) (scaled_pos h₁) (scaled_pos h₂)]
  omega

/-- **The target follows the difficulty exactly where the order is kept** when the powers
of 2^32 are divided out. -/
theorem followsDifficulty_iff {d₁ d₂ : ℚ} (hmin : 1 / 2 ^ 31 ≤ d₁) (hle : d₁ ≤ d₂) :
    FollowsDifficulty d₁ d₂ ↔ KeepsOrder d₁ d₂ ∧ (1 ≤ d₂ → KeepsOrder 1 d₂) := by
  have hmin₁ : 1 / 2 ^ 32 ≤ d₁ := le_trans (by norm_num) hmin
  have hmin₂ : 1 / 2 ^ 32 ≤ d₂ := hmin₁.trans hle
  have hone : (1 : ℚ) / 2 ^ 32 ≤ 1 := by norm_num
  constructor
  · intro H
    exact ⟨(toNat_setTargetToPdiff_le_iff hmin₁ hmin₂).mp H.falls,
      fun h => (toNat_setTargetToPdiff_le_iff hone hmin₂).mp (H.le_one h)⟩
  · rintro ⟨hkeeps, hbelow⟩
    have hfalls := (toNat_setTargetToPdiff_le_iff hmin₁ hmin₂).mpr hkeeps
    refine ⟨hfalls, ?_, fun h => (toNat_setTargetToPdiff_le_iff hone hmin₂).mpr (hbelow h)⟩
    intro hash hmeets
    rw [hashTargetCheck_iff] at hmeets ⊢
    exact hmeets.trans hfalls

/-- Between one half and one the target follows the difficulty. -/
theorem followsDifficulty_half :
    (1 : ℚ) / 2 ^ 31 ≤ 1 / 2 ∧ (1 / 2 : ℚ) ≤ 1 ∧ FollowsDifficulty (1 / 2) 1 := by
  have hmin : (1 : ℚ) / 2 ^ 31 ≤ 1 / 2 := by norm_num
  have hle : (1 / 2 : ℚ) ≤ 1 := by norm_num
  have hhalf : leadPowers (1 / 2) = 0 := by
    rw [leadPowers, clog_ceil_eq_zero hle, Nat.min_zero]
  have hone : leadPowers 1 = 0 := by rw [leadPowers, clog_ceil_eq_zero le_rfl, Nat.min_zero]
  refine ⟨hmin, hle, (followsDifficulty_iff hmin hle).mpr ⟨?_, fun _ => ?_⟩⟩
  · exact keepsOrder_of_leadPowers_eq hle (hhalf.trans hone.symm)
  · exact keepsOrder_of_leadPowers_eq le_rfl rfl

/-- Difficulty 2 has a higher target than difficulty 1. -/
theorem not_followsDifficulty_two :
    (1 : ℚ) / 2 ^ 31 ≤ 1 ∧ (1 : ℚ) ≤ 2 ∧ ¬ FollowsDifficulty 1 2 := by
  refine ⟨by norm_num, by norm_num, fun H => ?_⟩
  have hfalls := H.falls
  revert hfalls
  decide +kernel

end MassGridMiner
