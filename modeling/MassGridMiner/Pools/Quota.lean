import MassGridMiner.Lib.Divisor
import MassGridMiner.Pools.Table
import Mathlib.Algebra.Order.Ring.Nat

/-!
# Quotas

The user gives pools quotas, and `adjust_quota_gcd` divides them by what it takes for their
greatest common divisor.  It lowers the smallest quota until it divides each of them in turn,
and never looks back: the last number need not divide the quotas before.

## Main definitions

* `PoolStake`, `QuotaTable` — the quota of a pool and what is kept beside it.
* `adjustQuotaGcd` — the function of the source.
* `DividesQuotas` — the divisor is the greatest common one, and divides them all.
* `NoGreaterDivisors` — when it does.
-/

namespace MassGridMiner

/-- The part of `struct pool` that is about its share of the work.  A quota is an `int` that is
never negative; the algorithm is that of the goal of the pool. -/
structure PoolStake where
  quota : ℕ
  quotaGcd : ℤ
  quotaUsed : ℤ
  shares : ℤ
  malgo : ℕ
  stratumActive : Bool

/-- The pools, each listed once, with their shares of the work. -/
structure QuotaTable extends PoolTable where
  stake : ℕ → PoolStake
  globalQuotaGcd : ℕ
  nodup : pools.Nodup

/-- A number as an `unsigned long`, and as an `int`. -/
def toULong (x : ℤ) : ℤ := x % 2 ^ 64
def toCInt (x : ℤ) : ℤ := x.bmod (2 ^ 32)

namespace QuotaTable

/-- The quotas that are not zero, in the order of the pools. -/
def quotas (s : QuotaTable) : List ℕ :=
  (s.pools.map fun p => (s.stake p).quota).filter (· != 0)

/-- What the first two loops of `adjust_quota_gcd` come to. -/
def quotaDivisor (s : QuotaTable) : ℕ :=
  match s.quotas.min? with
  | some lowestQuota => lowerAll s.quotas lowestQuota
  | none => 1

/-- `quota_used` when the divisor changes: an `int` is multiplied with an `unsigned long` and
divided by another. -/
def scaleUsed (used : ℤ) (globalQuotaGcd gcd : ℕ) : ℤ :=
  let used := toCInt (toULong (toULong used * globalQuotaGcd))
  toCInt (toULong used / gcd)

/-- `adjust_quota_gcd`. -/
def adjustQuotaGcd (s : QuotaTable) : QuotaTable :=
  let gcd := s.quotaDivisor
  { s with
    stake := updateAll s.pools
      (fun stake =>
        { stake with
          quotaUsed := scaleUsed stake.quotaUsed s.globalQuotaGcd gcd
          quotaGcd := (stake.quota / gcd : ℕ) })
      s.stake
    globalQuotaGcd := gcd }

/-- The greatest common divisor of the quotas that are not zero; 1 where there are none. -/
def commonDivisor (s : QuotaTable) : ℕ := if s.quotas = [] then 1 else gcdAll s.quotas

/-- The divisor is the greatest common one, so that every quota is its multiple by the number
that is kept, and those numbers are to each other as the quotas. -/
structure DividesQuotas (s : QuotaTable) : Prop where
  divisor : s.adjustQuotaGcd.globalQuotaGcd = s.commonDivisor
  multiple : ∀ p ∈ s.pools,
    (s.adjustQuotaGcd.stake p).quotaGcd * s.adjustQuotaGcd.globalQuotaGcd = (s.stake p).quota
  ratio : ∀ p ∈ s.pools, ∀ q ∈ s.pools,
    (s.adjustQuotaGcd.stake p).quotaGcd * (s.stake q).quota =
      (s.adjustQuotaGcd.stake q).quotaGcd * (s.stake p).quota

/-- No divisors of the quotas one after the other, the first up to the smallest quota and none
greater than the one before, are all greater than the common one. -/
def NoGreaterDivisors (s : QuotaTable) : Prop :=
  ∀ lowestQuota, s.quotas.min? = some lowestQuota →
    ¬ ∃ es, DivisorChain lowestQuota s.quotas es ∧ ∀ e ∈ es, gcdAll s.quotas < e

/-! ## The divisor -/

section
variable {s : QuotaTable} {p : ℕ}

theorem mem_quotas (hp : p ∈ s.pools) (hzero : (s.stake p).quota ≠ 0) :
    (s.stake p).quota ∈ s.quotas :=
  List.mem_filter.mpr ⟨List.mem_map_of_mem hp, by simpa using hzero⟩

theorem pos_of_mem_quotas {quota : ℕ} (H : quota ∈ s.quotas) : 0 < quota := by
  have hne := (List.mem_filter.mp H).2
  exact Nat.pos_of_ne_zero (by simpa using hne)

theorem quotaDivisor_pos (s : QuotaTable) : 0 < s.quotaDivisor := by
  rw [quotaDivisor]
  split
  next lowestQuota hmin =>
    exact lowerAll_pos _ (pos_of_mem_quotas (List.min?_mem hmin))
  next => exact Nat.one_pos

/-- The divisor is no greater than any quota but zero. -/
theorem quotaDivisor_le (hp : p ∈ s.pools) (hzero : (s.stake p).quota ≠ 0) :
    s.quotaDivisor ≤ (s.stake p).quota := by
  have hmem := mem_quotas hp hzero
  rw [quotaDivisor]
  split
  next lowestQuota hmin =>
    exact (lowerAll_le _ _).trans ((List.min?_eq_some_iff.mp hmin).2 _ hmem)
  next hnone =>
    rw [List.min?_eq_none_iff.mp hnone] at hmem
    exact absurd hmem List.not_mem_nil

/-- The greatest common divisor is found exactly when no chain of greater ones is. -/
theorem quotaDivisor_eq_iff (s : QuotaTable) :
    s.quotaDivisor = s.commonDivisor ↔ s.NoGreaterDivisors := by
  rw [quotaDivisor, commonDivisor, NoGreaterDivisors]
  split
  next lowestQuota hmin =>
    have hmem := List.min?_mem hmin
    have hne : s.quotas ≠ [] := List.ne_nil_of_mem hmem
    have hpos := pos_of_mem_quotas hmem
    have hle := Nat.le_of_dvd hpos (gcdAll_dvd hmem)
    rw [if_neg hne, lowerAll_eq_gcdAll_iff hne hpos hle, hmin]
    simp
  next hnone =>
    rw [List.min?_eq_none_iff.mp hnone]
    simp

theorem quotaGcd_adjustQuotaGcd (hp : p ∈ s.pools) :
    (s.adjustQuotaGcd.stake p).quotaGcd = ((s.stake p).quota / s.quotaDivisor : ℕ) :=
  congrArg PoolStake.quotaGcd (updateAll_of_mem s.nodup hp)

/-- Only a quota of zero is divided to zero. -/
theorem quotaGcd_eq_zero_iff (hp : p ∈ s.pools) :
    (s.adjustQuotaGcd.stake p).quotaGcd = 0 ↔ (s.stake p).quota = 0 := by
  rw [quotaGcd_adjustQuotaGcd hp, Nat.cast_eq_zero, Nat.div_eq_zero_iff_lt s.quotaDivisor_pos]
  constructor
  · intro hlt
    by_contra hzero
    have := quotaDivisor_le hp hzero
    omega
  · intro hzero
    rw [hzero]
    exact s.quotaDivisor_pos

theorem commonDivisor_dvd (hp : p ∈ s.pools) : s.commonDivisor ∣ (s.stake p).quota := by
  by_cases hzero : (s.stake p).quota = 0
  · rw [hzero]
    exact dvd_zero _
  · have hmem := mem_quotas hp hzero
    rw [commonDivisor, if_neg (List.ne_nil_of_mem hmem)]
    exact gcdAll_dvd hmem

end

/-- **The quotas are divided by their greatest common divisor exactly when no chain of greater
divisors goes through them.** -/
theorem dividesQuotas_iff (s : QuotaTable) : s.DividesQuotas ↔ s.NoGreaterDivisors := by
  rw [← quotaDivisor_eq_iff]
  constructor
  · intro H
    exact H.divisor
  · intro heq
    have hmultiple : ∀ p ∈ s.pools,
        (s.adjustQuotaGcd.stake p).quotaGcd * s.quotaDivisor = (s.stake p).quota := by
      intro p hp
      rw [quotaGcd_adjustQuotaGcd hp, ← Nat.cast_mul, Nat.div_mul_cancel]
      rw [heq]
      exact commonDivisor_dvd hp
    refine ⟨heq, hmultiple, ?_⟩
    intro p hp q hq
    rw [← hmultiple p hp, ← hmultiple q hq]
    exact mul_left_comm _ _ _

/-- Pools with such quotas, which work. -/
def ofQuotas (quotas : List ℕ) : QuotaTable :=
  { PoolTable.init .loadbalance false with
    pool := fun p =>
      { PoolState.zero with
        prio := p
        poolNo := p
        enabled := .enabled }
    pools := List.range quotas.length
    stake := fun p => ⟨quotas[p]?.getD 0, 0, 0, 0, 0, false⟩
    globalQuotaGcd := 1
    nodup := List.nodup_range }

/-- Four is lowered to three for the sake of six, and does not divide four any more. -/
theorem not_dividesQuotas_four_six : ¬ (ofQuotas [4, 6]).DividesQuotas := by
  intro H
  have hdivisor : (3 : ℕ) = 2 := H.divisor
  omega

end QuotaTable

end MassGridMiner
