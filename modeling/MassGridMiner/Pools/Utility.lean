import MassGridMiner.Lib.Run
import MassGridMiner.Lib.SignedDouble
import MassGridMiner.Pools.Balanced

/-!
# The rolling utility of a pool

Every ten minutes `watchpool_thread` takes what `diff1` has grown by since the last time into
the rolling `utility` of a pool, and starts its `shares` from it.  `zero_stats` sets `diff1` back
and leaves `last_shares` as it was: at the next turn the counter has fallen, and the utility of
a pool can become negative, which has `select_balanced` prefer it.

## Main definitions

* `RateTable`, `RateEvent`, `RateTable.step` — the counters of the pools and what becomes of them.
* `NoneNegative` — what must hold.
* `Affords` — the condition on a step.
* `noneNegative_of_affords` — runs of such steps.
-/

namespace MassGridMiner

/-- A conversion of a `double` to an `int`.  It leaves out the fraction; what it makes of a number
that does not fit is not defined. -/
structure IntConversion where
  conv : ℚ → ℤ
  fits : ∀ x, -2 ^ 31 ≤ conv x ∧ conv x < 2 ^ 31
  conv_eq : ∀ x, -2 ^ 31 ≤ truncate x → truncate x < 2 ^ 31 → conv x = truncate x

/-- The part of `struct pool` that is about its utility, without its `shares`. -/
structure PoolRate where
  diff1 : ℚ
  lastShares : ℤ
  utility : ℚ

/-- The pools with their rates, and the variables `pool` and `shares` of `watchpool_thread` while
it takes the rate of a pool. -/
structure RateTable where
  table : QuotaTable
  rate : ℕ → PoolRate
  watched : Option (ℕ × ℤ)

/-- What the threads do: `submit_noffset_nonce` counts a share, `watchpool_thread` takes the
shares of a pool and then writes its rate, `zero_stats` and `select_balanced` are called, and
anything else about the pools may change but the counters. -/
inductive RateEvent
  | submit (p : ℕ) (nonceDiff : ℚ≥0)
  | watchShares (p : ℕ)
  | watchUtility
  | zeroStats
  | selectBalanced (cp : ℕ) (malgo : Option ℕ)
  | others (table : QuotaTable)

/-- The constants `0.63` and `1.63`. -/
def newWeight : ℚ := roundDouble (63 / 100)
def allWeight : ℚ := roundDouble (163 / 100)

/-- The utility after a turn: `(pool->utility + (double)shares * 0.63) / 1.63`. -/
def rollUtility (utility : ℚ) (shares : ℤ) : ℚ :=
  roundDouble (roundDouble (utility + roundDouble (shares * newWeight)) / allWeight)

namespace RateTable

/-- `pool->shares`. -/
def shares (s : RateTable) (p : ℕ) : ℤ := (s.table.stake p).shares

def setRate (s : RateTable) (p : ℕ) (rate : PoolRate) : RateTable :=
  { s with rate := Function.update s.rate p rate }

def setShares (s : RateTable) (shares : ℕ → ℤ) : RateTable :=
  { s with
    table := { s.table with stake := fun p => { s.table.stake p with shares := shares p } } }

/-- `work->pool->diff1 += work->nonce_diff`. -/
def submit (s : RateTable) (p : ℕ) (nonceDiff : ℚ≥0) : RateTable :=
  s.setRate p { s.rate p with diff1 := roundDouble ((s.rate p).diff1 + nonceDiff) }

/-- `int shares = pool->diff1 - pool->last_shares`. -/
def watchShares (conversion : IntConversion) (s : RateTable) (p : ℕ) : RateTable :=
  { s with
    watched := some (p, conversion.conv
      (roundDouble ((s.rate p).diff1 - (s.rate p).lastShares))) }

/-- The three assignments after it. -/
def watchUtility (conversion : IntConversion) (s : RateTable) (p : ℕ) (shares : ℤ) :
    RateTable :=
  let rate := s.rate p
  let utility := rollUtility rate.utility shares
  { (s.setRate p
      { rate with lastShares := conversion.conv rate.diff1, utility := utility }).setShares
      (Function.update s.shares p (conversion.conv utility)) with
    watched := none }

/-- `zero_stats`, as far as it is about these counters. -/
def zeroStats (s : RateTable) : RateTable :=
  { s with rate := fun p => if p ∈ s.table.pools then { s.rate p with diff1 := 0 } else s.rate p }

/-- `select_balanced`; `shares` is an `int`. -/
def selectBalanced (s : RateTable) (cp : ℕ) (malgo : Option ℕ) : RateTable :=
  let table := (s.table.selectBalanced cp malgo).2
  { s with table := table }.setShares fun p => toCInt (table.stake p).shares

def step (conversion : IntConversion) (s : RateTable) : RateEvent → Option RateTable
  | .submit p nonceDiff => some (s.submit p nonceDiff)
  | .watchShares p =>
      if s.watched = none ∧ p ∈ s.table.pools then some (s.watchShares conversion p) else none
  | .watchUtility => s.watched.map fun w => s.watchUtility conversion w.1 w.2
  | .zeroStats => some s.zeroStats
  | .selectBalanced cp malgo => some (s.selectBalanced cp malgo)
  | .others table => some ({ s with table := table }.setShares s.shares)

/-- No pool has counted anything yet. -/
structure Fresh (s : RateTable) : Prop where
  rate : ∀ p, s.rate p = ⟨0, 0, 0⟩
  shares : ∀ p, s.shares p = 0
  watched : s.watched = none

/-- No pool has a negative utility or a negative number of shares. -/
structure NoneNegative (s : RateTable) : Prop where
  utility : ∀ p, 0 ≤ (s.rate p).utility
  shares : ∀ p, 0 ≤ s.shares p

/-- The condition on a step.  A counter that `watchpool_thread` reads is below `2^31`, and for
all the whole shares by which it has fallen since the last turn there is utility; a pool for
which `select_balanced` counts one more share has not as many as an `int` can be. -/
def Affords (s : RateTable) : RateEvent → Prop
  | .watchShares p => (s.rate p).diff1 < 2 ^ 31 ∧ ∀ lost : ℕ,
      roundDouble ((s.rate p).diff1 - (s.rate p).lastShares) ≤ -lost →
        0 ≤ (s.rate p).utility + roundDouble (-lost * newWeight)
  | .watchUtility => ∀ w ∈ s.watched, (s.rate w.1).diff1 < 2 ^ 31
  | .selectBalanced cp malgo => ∀ p ∈ s.table.balancedPool cp malgo, s.shares p < 2 ^ 31 - 1
  | _ => True

/-- What runs of such steps keep. -/
structure Bounded (s : RateTable) : Prop where
  diff1 : ∀ p, 0 ≤ (s.rate p).diff1 ∧ IsDouble (s.rate p).diff1
  lastShares : ∀ p, 0 ≤ (s.rate p).lastShares ∧ (s.rate p).lastShares < 2 ^ 31
  utility : ∀ p, 0 ≤ (s.rate p).utility ∧ (s.rate p).utility ≤ 2 ^ 31 - 1 / 2
  shares : ∀ p, 0 ≤ s.shares p ∧ s.shares p < 2 ^ 31
  watched : ∀ w ∈ s.watched, (-2 ^ 31 ≤ w.2 ∧ w.2 < 2 ^ 31) ∧
    0 ≤ (s.rate w.1).utility + roundDouble (w.2 * newWeight)

/-! ## The roll -/

end RateTable

theorem newWeight_near : |newWeight - 63 / 100| ≤ 2 ^ (-53 : ℤ) :=
  abs_roundDouble_sub_le 0 (by norm_num [abs_lt])

theorem allWeight_near : |allWeight - 163 / 100| ≤ 2 ^ (-52 : ℤ) :=
  abs_roundDouble_sub_le 1 (by norm_num [abs_lt])

/-- What a turn adds is no more than the part of the shares that is meant, and a little. -/
theorem roundDouble_mul_newWeight_le {n : ℤ} (hn : -2 ^ 31 ≤ n ∧ n < 2 ^ 31) :
    roundDouble (n * newWeight) ≤ (2 ^ 31 - 1) * (63 / 100) + 1 / 100 := by
  obtain ⟨hlow, hhigh⟩ := abs_le.mp newWeight_near
  have hmin : (-2 ^ 31 : ℚ) ≤ n := by exact_mod_cast hn.1
  have hmax : (n : ℚ) ≤ 2 ^ 31 - 1 := by
    have hle : n ≤ 2 ^ 31 - 1 := by omega
    exact_mod_cast hle
  have hpos : 0 ≤ newWeight := by norm_num at hlow ⊢; linarith
  have hprod : n * newWeight ≤ (2 ^ 31 - 1) * newWeight := mul_le_mul_of_nonneg_right hmax hpos
  have hneg : -2 ^ 31 * newWeight ≤ n * newWeight := mul_le_mul_of_nonneg_right hmin hpos
  have hsmall : |n * newWeight| < 2 ^ 31 := by
    rw [abs_lt]
    norm_num at hlow hhigh hprod hneg ⊢
    constructor <;> linarith
  obtain ⟨-, herr⟩ := abs_le.mp (abs_roundDouble_sub_le 31 hsmall)
  norm_num at hhigh hprod herr ⊢
  linarith

/-- The utility stays where the number of shares that is made of it is an `int`. -/
theorem rollUtility_mem {u : ℚ} {n : ℤ} (hu : u ≤ 2 ^ 31 - 1 / 2)
    (hn : -2 ^ 31 ≤ n ∧ n < 2 ^ 31) (H : 0 ≤ u + roundDouble (n * newWeight)) :
    0 ≤ rollUtility u n ∧ rollUtility u n ≤ 2 ^ 31 - 1 / 2 := by
  obtain ⟨hlow, -⟩ := abs_le.mp allWeight_near
  have hweight : 163 / 100 - 1 / 2 ^ 40 ≤ allWeight := by norm_num at hlow ⊢; linarith
  have hpos : 0 < allWeight := by norm_num at hweight ⊢; linarith
  have hadd := roundDouble_mul_newWeight_le hn
  set sum := u + roundDouble (n * newWeight) with hsum
  have hround := roundDouble_nonneg H
  have hnonneg : 0 ≤ roundDouble sum / allWeight := div_nonneg hround hpos.le
  refine ⟨roundDouble_nonneg hnonneg, ?_⟩
  have hsize : |sum| < 2 ^ 32 := by
    rw [abs_of_nonneg H]
    norm_num at hu hadd ⊢
    linarith
  obtain ⟨-, herr⟩ := abs_le.mp (abs_roundDouble_sub_le 32 hsize)
  have hquot : roundDouble sum / allWeight ≤ 2 ^ 31 - 6 / 10 := by
    rw [div_le_iff₀ hpos]
    have hmul : (2 ^ 31 - 6 / 10) * (163 / 100 - 1 / 2 ^ 40) ≤ (2 ^ 31 - 6 / 10) * allWeight :=
      mul_le_mul_of_nonneg_left hweight (by norm_num)
    norm_num at hu hadd herr hmul ⊢
    linarith
  have hsmall : |roundDouble sum / allWeight| < 2 ^ 32 := by
    rw [abs_of_nonneg hnonneg]
    norm_num at hquot ⊢
    linarith
  obtain ⟨-, hlast⟩ := abs_le.mp (abs_roundDouble_sub_le 32 hsmall)
  rw [rollUtility]
  norm_num at hquot hlast ⊢
  linarith

/-! ## What a step keeps -/

namespace IntConversion

theorem conv_mem (conversion : IntConversion) {x : ℚ} (hx : 0 ≤ x) (H : x < 2 ^ 31) :
    0 ≤ conversion.conv x ∧ conversion.conv x < 2 ^ 31 := by
  have hpos := truncate_nonneg hx
  have hlt : truncate x < 2 ^ 31 := truncate_lt (by norm_num) (by exact_mod_cast H)
  rw [conversion.conv_eq x (by omega) hlt]
  exact ⟨hpos, hlt⟩

end IntConversion

/-- The conversion of a processor that makes the smallest `int` of what does not fit. -/
def x86Conv (x : ℚ) : ℤ :=
  if -2 ^ 31 ≤ truncate x ∧ truncate x < 2 ^ 31 then truncate x else -2 ^ 31

theorem x86Conv_fits (x : ℚ) : -2 ^ 31 ≤ x86Conv x ∧ x86Conv x < 2 ^ 31 := by
  rw [x86Conv]
  split
  next hfits => exact hfits
  next => norm_num

theorem x86Conv_eq (x : ℚ) (hlow : -2 ^ 31 ≤ truncate x) (hhigh : truncate x < 2 ^ 31) :
    x86Conv x = truncate x := if_pos ⟨hlow, hhigh⟩

def x86Conversion : IntConversion := ⟨x86Conv, x86Conv_fits, x86Conv_eq⟩

namespace RateTable

section
variable {conversion : IntConversion} {s s' : RateTable} {p : ℕ}

@[simp] theorem rate_setShares (s : RateTable) (n : ℕ → ℤ) : (s.setShares n).rate = s.rate := rfl

@[simp] theorem shares_setShares (s : RateTable) (n : ℕ → ℤ) : (s.setShares n).shares = n := rfl

@[simp] theorem shares_setRate (s : RateTable) (p : ℕ) (rate : PoolRate) :
    (s.setRate p rate).shares = s.shares := rfl

/-- The difference that `watchpool_thread` takes fits an `int`. -/
theorem truncate_watched (H : s.Bounded) (hlt : (s.rate p).diff1 < 2 ^ 31) :
    -2 ^ 31 ≤ truncate (roundDouble ((s.rate p).diff1 - (s.rate p).lastShares)) ∧
      truncate (roundDouble ((s.rate p).diff1 - (s.rate p).lastShares)) < 2 ^ 31 := by
  obtain ⟨hpos, hdouble⟩ := H.diff1 p
  have hlast : (0 : ℚ) ≤ (s.rate p).lastShares := by exact_mod_cast (H.lastShares p).1
  have hmax : ((s.rate p).lastShares : ℚ) ≤ 2 ^ 31 - 1 := by
    have hle : (s.rate p).lastShares ≤ 2 ^ 31 - 1 := by have := (H.lastShares p).2; omega
    exact_mod_cast hle
  generalize hx : (s.rate p).diff1 - (s.rate p).lastShares = x
  have hupper : roundDouble x < 2 ^ 31 :=
    (roundDouble_le hdouble hpos (by linarith)).trans_lt hlt
  have hsize : |x| < 2 ^ 31 := by
    rw [abs_lt]
    constructor <;> linarith
  obtain ⟨herr, -⟩ := abs_le.mp (abs_roundDouble_sub_le 31 hsize)
  have hlower : -((2 ^ 31 - 1 : ℕ) + 1 : ℚ) < roundDouble x := by
    norm_num at herr hmax ⊢
    linarith
  refine ⟨?_, truncate_lt (by norm_num) (by exact_mod_cast hupper)⟩
  have hle := neg_le_truncate hlower
  norm_num at hle ⊢
  linarith

/-- A share is submitted. -/
theorem Bounded.submit (H : s.Bounded) (p : ℕ) (nonceDiff : ℚ≥0) :
    (s.submit p nonceDiff).Bounded := by
  have hadd : 0 ≤ (s.rate p).diff1 + nonceDiff := add_nonneg (H.diff1 p).1 nonceDiff.2
  have hother : ∀ q, q ≠ p → (s.submit p nonceDiff).rate q = s.rate q :=
    fun q hq => Function.update_of_ne hq _ _
  have hsame : (s.submit p nonceDiff).rate p =
      { s.rate p with diff1 := roundDouble ((s.rate p).diff1 + nonceDiff) } :=
    Function.update_self _ _ _
  refine ⟨?_, ?_, ?_, H.shares, ?_⟩
  · intro q
    by_cases hq : q = p
    · rw [hq, hsame]
      exact ⟨roundDouble_nonneg hadd, isDouble_roundDouble _⟩
    · rw [hother q hq]
      exact H.diff1 q
  · intro q
    by_cases hq : q = p
    · rw [hq, hsame]
      exact H.lastShares p
    · rw [hother q hq]
      exact H.lastShares q
  · intro q
    by_cases hq : q = p
    · rw [hq, hsame]
      exact H.utility p
    · rw [hother q hq]
      exact H.utility q
  · intro w hw
    refine ⟨(H.watched w hw).1, ?_⟩
    by_cases hq : w.1 = p
    · rw [hq, hsame]
      exact hq ▸ (H.watched w hw).2
    · rw [hother w.1 hq]
      exact (H.watched w hw).2

/-- `watchpool_thread` takes the shares: there is utility for those that were lost. -/
theorem Bounded.watchShares (H : s.Bounded) (hafford : s.Affords (.watchShares p)) :
    (s.watchShares conversion p).Bounded := by
  refine ⟨H.diff1, H.lastShares, H.utility, H.shares, ?_⟩
  intro w hw
  obtain rfl := Option.some.inj hw
  refine ⟨conversion.fits _, ?_⟩
  obtain ⟨hlow, hhigh⟩ := truncate_watched H hafford.1
  dsimp only
  rw [conversion.conv_eq _ hlow hhigh]
  generalize hx : roundDouble ((s.rate p).diff1 - (s.rate p).lastShares) = x at hlow hhigh
  have hweight : 0 ≤ newWeight := by
    have hnear := (abs_le.mp newWeight_near).1
    norm_num at hnear ⊢
    linarith
  rcases lt_or_ge (truncate x) 0 with hneg | hnonneg
  · obtain ⟨lost, hlost⟩ := Int.exists_eq_neg_ofNat hneg.le
    have hle := le_truncate_of_neg hneg
    rw [hlost] at hle ⊢
    have hhave := hafford.2 lost (by rw [hx]; exact_mod_cast hle)
    exact_mod_cast hhave
  · have hprod : 0 ≤ (truncate x : ℚ) * newWeight :=
      mul_nonneg (by exact_mod_cast hnonneg) hweight
    exact add_nonneg (H.utility p).1 (roundDouble_nonneg hprod)

/-- It writes the rate. -/
theorem Bounded.watchUtility {shares : ℤ} (H : s.Bounded) (hw : (p, shares) ∈ s.watched)
    (hlt : (s.rate p).diff1 < 2 ^ 31) : (s.watchUtility conversion p shares).Bounded := by
  obtain ⟨hfits, hafford⟩ := H.watched _ hw
  have hroll := rollUtility_mem (H.utility p).2 hfits hafford
  have hlast := conversion.conv_mem (H.diff1 p).1 hlt
  have hshares := conversion.conv_mem hroll.1 (hroll.2.trans_lt (by norm_num))
  have hother : ∀ q, q ≠ p → (s.watchUtility conversion p shares).rate q = s.rate q :=
    fun q hq => Function.update_of_ne hq _ _
  have hsame : (s.watchUtility conversion p shares).rate p =
      { s.rate p with
        lastShares := conversion.conv (s.rate p).diff1
        utility := rollUtility (s.rate p).utility shares } :=
    Function.update_self _ _ _
  refine ⟨?_, ?_, ?_, ?_, ?_⟩
  · intro q
    by_cases hq : q = p
    · rw [hq, hsame]
      exact H.diff1 p
    · rw [hother q hq]
      exact H.diff1 q
  · intro q
    by_cases hq : q = p
    · rw [hq, hsame]
      exact hlast
    · rw [hother q hq]
      exact H.lastShares q
  · intro q
    by_cases hq : q = p
    · rw [hq, hsame]
      exact hroll
    · rw [hother q hq]
      exact H.utility q
  · intro q
    by_cases hq : q = p
    · have heq : (s.watchUtility conversion p shares).shares p =
          conversion.conv (rollUtility (s.rate p).utility shares) := Function.update_self _ _ _
      rw [hq, heq]
      exact hshares
    · have heq : (s.watchUtility conversion p shares).shares q = s.shares q :=
        Function.update_of_ne hq _ _
      rw [heq]
      exact H.shares q
  · intro w hnone
    cases hnone

theorem Bounded.zeroStats (H : s.Bounded) : s.zeroStats.Bounded := by
  have hrate : ∀ p, s.zeroStats.rate p = { s.rate p with diff1 := 0 } ∨
      s.zeroStats.rate p = s.rate p := by
    intro p
    by_cases hp : p ∈ s.table.pools
    · exact .inl (if_pos hp)
    · exact .inr (if_neg hp)
  refine ⟨?_, ?_, ?_, H.shares, ?_⟩
  · intro p
    rcases hrate p with heq | heq <;> rw [heq]
    · exact ⟨le_rfl, by exact_mod_cast isDouble_natCast (Nat.zero_le _)⟩
    · exact H.diff1 p
  · intro p
    rcases hrate p with heq | heq <;> rw [heq] <;> exact H.lastShares p
  · intro p
    rcases hrate p with heq | heq <;> rw [heq] <;> exact H.utility p
  · intro w hw
    rcases hrate w.1 with heq | heq <;> rw [heq] <;> exact H.watched w hw

/-- What another thread makes of the table. -/
theorem Bounded.setShares (H : s.Bounded) (table : QuotaTable) {shares : ℕ → ℤ}
    (hshares : ∀ p, 0 ≤ shares p ∧ shares p < 2 ^ 31) :
    ({ s with table := table }.setShares shares).Bounded :=
  ⟨H.diff1, H.lastShares, H.utility, hshares, H.watched⟩

/-- One share is counted for the pool that is chosen. -/
theorem Bounded.selectBalanced {cp : ℕ} {malgo : Option ℕ} (H : s.Bounded)
    (hafford : s.Affords (.selectBalanced cp malgo)) : (s.selectBalanced cp malgo).Bounded := by
  refine H.setShares _ fun p => ?_
  have hold : 0 ≤ (s.table.stake p).shares ∧ (s.table.stake p).shares < 2 ^ 31 := H.shares p
  have hkeep : ∀ n : ℤ, 0 ≤ n ∧ n < 2 ^ 31 → 0 ≤ toCInt n ∧ toCInt n < 2 ^ 31 := by
    intro n hn
    rw [toCInt, Int.bmod_eq_of_le (by omega) (by omega)]
    exact hn
  apply hkeep
  rw [QuotaTable.selectBalanced]
  cases hret : s.table.balancedPool cp malgo with
  | none => exact hold
  | some r =>
      have hroom : (s.table.stake r).shares < 2 ^ 31 - 1 := hafford r hret
      have hcount := QuotaTable.shares_countShare s.table r p
      change 0 ≤ ((s.table.countShare r).stake p).shares ∧
        ((s.table.countShare r).stake p).shares < 2 ^ 31
      rw [hcount]
      by_cases hp : r = p
      · rw [if_pos (congrArg some hp)]
        subst hp
        omega
      · rw [if_neg fun heq => hp (Option.some.inj heq)]
        omega

/-- **Steps.**  The bounds are kept where the condition holds. -/
theorem Bounded.step {e : RateEvent} (H : s.Bounded) (hs : s.step conversion e = some s')
    (hafford : s.Affords e) : s'.Bounded := by
  cases e with
  | submit p nonceDiff =>
      obtain rfl := Option.some.inj hs
      exact H.submit p nonceDiff
  | watchShares p =>
      rw [RateTable.step, Option.ite_none_right_eq_some] at hs
      obtain rfl := Option.some.inj hs.2
      exact H.watchShares hafford
  | watchUtility =>
      obtain ⟨w, hw, rfl⟩ := Option.map_eq_some_iff.mp hs
      exact H.watchUtility hw (hafford w hw)
  | zeroStats =>
      obtain rfl := Option.some.inj hs
      exact H.zeroStats
  | selectBalanced cp malgo =>
      obtain rfl := Option.some.inj hs
      exact H.selectBalanced hafford
  | others table =>
      obtain rfl := Option.some.inj hs
      exact H.setShares table H.shares

theorem Bounded.noneNegative (H : s.Bounded) : s.NoneNegative :=
  ⟨fun p => (H.utility p).1, fun p => (H.shares p).1⟩

theorem Fresh.bounded (H : s.Fresh) : s.Bounded := by
  refine ⟨?_, ?_, ?_, ?_, ?_⟩
  · intro p
    rw [H.rate]
    exact ⟨le_rfl, by exact_mod_cast isDouble_natCast (Nat.zero_le _)⟩
  · intro p
    rw [H.rate]
    norm_num
  · intro p
    rw [H.rate]
    norm_num
  · intro p
    rw [H.shares]
    norm_num
  · intro w hw
    rw [H.watched] at hw
    cases hw

end

/-- **In a run that starts afresh and whose steps all meet the condition, no utility and no
number of shares is ever negative.** -/
theorem noneNegative_of_affords (conversion : IntConversion) {s : RateTable} (hs : s.Fresh)
    (es : List RateEvent)
    (H : Run.AllSteps (step conversion) (fun s e _ => s.Affords e) s es) :
    Run.AllSteps (step conversion) (fun _ _ s' => s'.NoneNegative) s es :=
  Run.allSteps_imp_of_invariant
    (fun _ _ _ hI hstep hP => ⟨hI.step hstep hP, (hI.step hstep hP).noneNegative⟩)
    hs.bounded H

/-- A pool that works, and has counted nothing. -/
def onePool : RateTable := ⟨QuotaTable.ofQuotas [1], fun _ => ⟨0, 0, 0⟩, none⟩

theorem fresh_onePool : onePool.Fresh := ⟨fun _ => rfl, fun _ => rfl, rfl⟩

/-- A hundred shares in ten minutes, and none in the next, after which the counters are zeroed. -/
def zeroed : List RateEvent :=
  [.submit 0 100, .watchShares 0, .watchUtility, .zeroStats, .watchShares 0, .watchUtility]

/-- The hundred shares are taken off again. -/
theorem not_noneNegative_zeroed : ¬ ∀ s : RateTable, s.Fresh → ∀ es,
    Run.AllSteps (step x86Conversion) (fun _ _ s' => s'.NoneNegative) s es := by
  intro H
  have hend : ((Run.exec (step x86Conversion) onePool zeroed).any fun s' =>
      decide ((s'.rate 0).utility < 0)) = true := by decide +kernel
  obtain ⟨s', hrun, hneg⟩ := (Option.any_eq_true _ _).mp hend
  have hkeep : s'.NoneNegative :=
    Run.exec_invariant (I := NoneNegative) (fun _ _ _ _ _ hP => hP)
      fresh_onePool.bounded.noneNegative hrun (H onePool fresh_onePool zeroed)
  exact absurd (hkeep.utility 0) (not_le.mpr (of_decide_eq_true hneg))

/-- Without a reset, and with a share counted at the end. -/
theorem noneNegative_counted :
    Run.AllSteps (step x86Conversion) (fun _ _ s' => s'.NoneNegative) onePool
      [.submit 0 100, .watchShares 0, .watchUtility, .selectBalanced 0 none] := by
  refine noneNegative_of_affords x86Conversion fresh_onePool _ ?_
  have hpos : 0 < roundDouble (roundDouble (0 + (100 : ℚ≥0)) - (0 : ℤ)) := by decide +kernel
  refine Run.allSteps_cons_of_eq rfl trivial (Run.allSteps_cons_of_eq rfl ?_
    (Run.allSteps_cons_of_eq rfl ?_ (Run.allSteps_cons_of_eq rfl ?_ trivial)))
  · refine ⟨by decide +kernel, ?_⟩
    intro lost hlost
    have hle : (0 : ℚ) ≤ lost := lost.cast_nonneg
    exact absurd (hpos.trans_le (hlost.trans (neg_nonpos.mpr hle))) (lt_irrefl _)
  · intro w hw
    obtain rfl := Option.some.inj hw
    decide +kernel
  · intro p hp
    obtain rfl := Option.some.inj hp
    decide +kernel

end RateTable

end MassGridMiner
